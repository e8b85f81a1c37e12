import Sto.Growth
import Sto.Presence
import Sto.CountNesting

namespace Sto

open Library

variable {env : Externals} {pg : Postgres} {us : List Upload} {e : Int64} {a b c : Db}

/-- Two states that differ in other executables only, and in frames that have been added. -/
structure Db.SameProfile (e : Int64) (a b : Db) : Prop where
  executable : b.executable.lookup e = a.executable.lookup e
  nodes : (b.stackNode.rows.filter fun n ↦ n.executableId = e) =
    a.stackNode.rows.filter fun n ↦ n.executableId = e
  frames : a.stackNodeData.rows <+: b.stackNodeData.rows

theorem Db.SameProfile.refl (a : Db) : a.SameProfile e a := ⟨rfl, rfl, List.prefix_rfl⟩

theorem Db.SameProfile.trans (h : a.SameProfile e b) (h' : b.SameProfile e c) :
    a.SameProfile e c where
  executable := h'.executable.trans h.executable
  nodes := h'.nodes.trans h.nodes
  frames := h.frames.trans h'.frames

theorem sameProfile_transaction {u : Upload} {i : ℕ} {tx : Db → Except SqlError Db} {db db' : Db}
    (htx : (program pg env u)[i]? = some tx) (h : tx db = .ok db') (hne : u.executableId env ≠ e)
    (hother : ∀ n ∈ db.stackNode.rows, n.executableId = e → ∀ o ∈ u.occurrences env, n.id ≠ o.id) :
    db.SameProfile e db' := by
  obtain ⟨_, rfl⟩ | ⟨_, rfl⟩ | ⟨_, rfl⟩ := program_cases htx
  · obtain ⟨ds, _, rfl⟩ := insertStackNodeData_result h
    exact ⟨rfl, rfl, Table.prefix_upsertAll_first _ ds⟩
  · obtain ⟨_, _, _, rfl⟩ := insertExecutable_ok.mp h
    refine ⟨?_, rfl, List.prefix_rfl⟩
    have hnone : (u.request env).executables.filter (fun r ↦ r.id = e) = [] := by
      rw [List.filter_eq_nil_iff]
      intro r hr hid
      rw [request_executable_cases hr] at hid
      exact hne (of_decide_eq_true hid)
    dsimp only
    rw [Table.lookup_upsertAll, hnone, Merge.absorbAll_nil]
  · obtain ⟨_, _, _, rfl, _⟩ := insertStackNode_ok.mp h
    refine ⟨rfl, ?_, List.prefix_rfl⟩
    apply Table.filter_upsertAll_of_others fun _ _ ↦ rfl
    · intro r hr
      apply decide_eq_false
      rw [payload_node_executable (Upload.mem_request_nodes hr)]
      exact hne
    · intro n hn hexe r hr
      obtain ⟨o, ho, hoid, _⟩ := Upload.payload_node_source (Upload.mem_request_nodes hr)
      rw [← hoid]
      exact hother n hn (of_decide_eq_true hexe) o ho

/-- The steps of a schedule are those of uploads of other executables. -/
def Spares (env : Externals) (us : List Upload) (e : Int64) (sched : List ℕ) : Prop :=
  ∀ i ∈ sched, ∀ u, us[i]? = some u → u.executableId env ≠ e

theorem sameProfile_run (pg : Postgres) (hids : NodeIdsDistinct env us) (sched : List ℕ)
    {later : List ℕ} (hspares : Spares env us e later) :
    (reached pg env us sched).store.SameProfile e (reached pg env us (sched ++ later)).store := by
  induction later using List.reverseRecOn with
  | nil =>
    rw [List.append_nil]
    exact .refl _
  | append_singleton later i ih =>
    have hlast := hspares i (by simp)
    refine (ih fun k hk ↦ hspares k (List.mem_append_left _ hk)).trans ?_
    rw [← List.append_assoc]
    have hprov := provenance_run pg env us (sched ++ later)
    have hreq := run_requests pg env us (sched ++ later)
    have hsub : ∀ u ∈ (reached pg env us (sched ++ later)).past 3, u ∈ us :=
      fun u hu ↦ past_subset pg env us _ hu
    rw [reached_append pg env us (sched ++ later)]
    change Db.SameProfile e _
      ((reached pg env us (sched ++ later)).step (program pg env) i).store
    generalize reached pg env us (sched ++ later) = s at *
    obtain he | ⟨j, tx, hj, _, htx, ⟨st, hst, he⟩ | ⟨_, _, he⟩⟩ :=
      System.step_cases (program pg env) s i
    · rw [he]
      exact .refl _
    · rw [he]
      have hu : us[i]? = some j.request := by
        rw [← hreq, List.getElem?_map, hj]
        rfl
      apply sameProfile_transaction htx hst (hlast _ hu)
      intro n hn hexe o ho hid
      obtain ⟨v, hv, o', ho', hoid, hoexe⟩ := hprov.node_row hn
      have hsame := hids o' (List.mem_flatMap.mpr ⟨v, hsub v hv, ho'⟩) o
        (List.mem_flatMap.mpr ⟨_, List.mem_of_getElem? hu, ho⟩) (hoid.trans hid)
      apply hlast _ hu
      rw [← (Upload.occurrence_refs ho).2.2.1, ← hsame.2.2, hoexe, hexe]
    · rw [he]
      exact .refl _

theorem Db.SameProfile.selectStackNode (h : a.SameProfile e b) (rows : Arrangement) :
    selectStackNode rows e b = selectStackNode rows e a := congrArg rows.arrange h.nodes

theorem Db.SameProfile.ofFrame (h : a.SameProfile e b) (d : Int64) :
    b.stackNode.rows.filter (Db.ofFrame e d) = a.stackNode.rows.filter (Db.ofFrame e d) := by
  have hfilter : ∀ db : Db, db.stackNode.rows.filter (Db.ofFrame e d) =
      (db.stackNode.rows.filter fun n ↦ n.executableId = e).filter fun n ↦
        n.stackNodeDataId = d := by
    intro db
    rw [List.filter_filter]
    rfl
  rw [hfilter, hfilter, h.nodes]

theorem Db.SameProfile.old_frame (h : a.SameProfile e b) (hfk : a.ForeignKeys) {d : StackNodeData}
    (hd : d ∈ b.stackNodeData.rows)
    (hn : ∃ n ∈ b.stackNode.rows, Db.ofFrame e d.id n = true) : d ∈ a.stackNodeData.rows := by
  obtain ⟨n, hn, hof⟩ := hn
  have hmem : n ∈ b.stackNode.rows.filter (Db.ofFrame e d.id) := List.mem_filter.mpr ⟨hn, hof⟩
  rw [h.ofFrame] at hmem
  have hrefs := (Db.resolves_iff.mp (hfk n (List.mem_filter.mp hmem).1)).2.1
  rw [(Db.ofFrame_iff.mp hof).1] at hrefs
  obtain ⟨d', hd', hid⟩ := Table.has_iff.mp hrefs
  rwa [List.inj_on_of_nodup_map b.stackNodeData.nodup hd (h.frames.subset hd') hid.symm]

theorem Db.SameProfile.selectStackNodeData (h : a.SameProfile e b) (hfk : a.ForeignKeys)
    (rows : Arrangement) : selectStackNodeData rows e b = selectStackNodeData rows e a := by
  obtain ⟨news, hnews⟩ := h.frames
  have hnone : (news.flatMap fun d ↦
      (b.stackNode.rows.filter (Db.ofFrame e d.id)).map fun _ ↦ d) = [] := by
    rw [List.flatMap_eq_nil_iff]
    intro d hd
    rw [List.map_eq_nil_iff, List.filter_eq_nil_iff]
    intro n hn hof
    have hmem : d ∈ b.stackNodeData.rows := hnews ▸ List.mem_append_right _ hd
    have hnodup := b.stackNodeData.nodup_rows
    rw [← hnews, List.nodup_append] at hnodup
    exact hnodup.2.2 d (h.old_frame hfk hmem ⟨n, hn, hof⟩) d hd rfl
  change rows.arrange (b.stackNodeData.rows.flatMap fun d ↦
      (b.stackNode.rows.filter (Db.ofFrame e d.id)).map fun _ ↦ d) =
    rows.arrange (a.stackNodeData.rows.flatMap fun d ↦
      (a.stackNode.rows.filter (Db.ofFrame e d.id)).map fun _ ↦ d)
  rw [← hnews, List.flatMap_append, hnone, List.append_nil]
  simp only [h.ofFrame]

theorem Db.SameProfile.presents (h : a.SameProfile e b) (hfk : a.ForeignKeys) {p : SymPct}
    (hp : p.exe.id = e) : b.Presents p ↔ a.Presents p := by
  have hexe : p.exe ∈ b.executable.rows ↔ p.exe ∈ a.executable.rows := by
    have hlookup : ∀ db : Db, p.exe ∈ db.executable.rows ↔ db.executable.lookup e = some p.exe := by
      intro db
      rw [Table.lookup_eq_some]
      exact (and_iff_left hp).symm
    rw [hlookup, hlookup, h.executable]
  have hnode : (∃ n ∈ b.stackNode.rows, Db.ofFrame e p.snd.id n = true) ↔
      ∃ n ∈ a.stackNode.rows, Db.ofFrame e p.snd.id n = true := by
    simp only [← List.mem_filter, h.ofFrame]
  have hhits : b.hits e p.snd.id = a.hits e p.snd.id := by rw [Db.hits, Db.hits, h.ofFrame]
  constructor
  · intro hx
    obtain ⟨hxexe, hsnd, hxnode, hpresence⟩ := hx
    rw [hp] at hxnode hpresence
    refine ⟨hexe.mp hxexe, h.old_frame hfk hsnd hxnode, ?_, ?_⟩
    · rw [hp]
      exact hnode.mp hxnode
    · rw [hp, ← hhits]
      exact hpresence
  · intro hx
    obtain ⟨hxexe, hsnd, hxnode, hpresence⟩ := hx
    rw [hp] at hxnode hpresence
    refine ⟨hexe.mpr hxexe, h.frames.subset hsnd, ?_, ?_⟩
    · rw [hp]
      exact hnode.mpr hxnode
    · rw [hp, hhits]
      exact hpresence

/-- Uploads of other programs and versions change nothing of what is answered about `e`, also
not while they are on their way. -/
theorem profiles_do_not_interfere (pg : Postgres) (hids : NodeIdsDistinct env us)
    (sched : List ℕ) {later : List ℕ} (hspares : Spares env us e later) :
    let before := (reached pg env us sched).store
    let meanwhile := fun l ↦ (reached pg env us (sched ++ l)).store
    ∀ l₁ l₂ l₃, l₁ <+: later → l₂ <+: later → l₃ <+: later → ∀ rows iter,
      metadata e (meanwhile l₁) = metadata e before ∧
        getDag rows iter e (meanwhile l₁) (meanwhile l₂) (meanwhile l₃) =
          getDag rows iter e before before before := by
  intro before meanwhile l₁ l₂ l₃ h₁ h₂ h₃ rows iter
  have hsame : ∀ l, l <+: later → before.SameProfile e (meanwhile l) :=
    fun l hl ↦ sameProfile_run pg hids sched fun i hi ↦ hspares i (hl.subset hi)
  have hfk : before.ForeignKeys := reached_foreignKeys pg env us sched
  constructor
  · rw [metadata, metadata, selectExecutable, selectExecutable, (hsame l₁ h₁).executable]
  · unfold getDag selectExecutable
    rw [(hsame l₁ h₁).selectStackNode, (hsame l₂ h₂).selectStackNodeData hfk,
      (hsame l₃ h₃).executable]

def twoPrograms : List Upload :=
  [demoUpload, { demoUpload with args := ⟨2, .cycles, "other", none⟩ }]

theorem twoPrograms_nodeIds : NodeIdsDistinct demoExternals twoPrograms := by decide +kernel

theorem twoPrograms_spares : Spares demoExternals twoPrograms 9544298 [1, 1, 1] := by
  intro i hi u hu
  obtain rfl : i = 1 := by simpa using hi
  obtain rfl := Option.some_inj.mp hu
  decide +kernel

theorem profiles_do_not_interfere_demo :
    let before := (reached lenientPostgres demoExternals twoPrograms [0, 0, 0]).store
    let meanwhile := fun l ↦
      (reached lenientPostgres demoExternals twoPrograms ([0, 0, 0] ++ l)).store
    ∀ l₁ l₂ l₃, l₁ <+: [1, 1, 1] → l₂ <+: [1, 1, 1] → l₃ <+: [1, 1, 1] → ∀ rows iter,
      metadata 9544298 (meanwhile l₁) = metadata 9544298 before ∧
        getDag rows iter 9544298 (meanwhile l₁) (meanwhile l₂) (meanwhile l₃) =
          getDag rows iter 9544298 before before before :=
  profiles_do_not_interfere lenientPostgres twoPrograms_nodeIds [0, 0, 0] twoPrograms_spares

def Db.ReportsBetween (db : Db) (start : Timestamp) (e e' : Int64) (x : Regression) : Prop :=
  ∃ p q, db.Presents p ∧ db.Presents q ∧ p.exe.id = e ∧ q.exe.id = e' ∧
    isRegression start p q = true ∧ x = regression p q (pctDiff p q)

theorem reports_iff {db : Db} {start : Timestamp} {x : Regression} :
    db.Reports start x ↔ ∃ e e', db.ReportsBetween start e e' x := by
  constructor
  · intro hx
    obtain ⟨p, q, hp, hq, hreg⟩ := hx
    exact ⟨_, _, p, q, hp, hq, rfl, rfl, hreg⟩
  · intro hx
    obtain ⟨_, _, p, q, hp, hq, _, _, hreg⟩ := hx
    exact ⟨p, q, hp, hq, hreg⟩

/-- What has been reported about two executables is still reported, and nothing else is, as
long as no new samples of either of them come in. -/
theorem regressions_do_not_interfere (pg : Postgres) (hids : NodeIdsDistinct env us)
    (sched later : List ℕ) (order : Arrangement) (start : Timestamp) :
    let before := (reached pg env us sched).store
    let after := (reached pg env us (sched ++ later)).store
    ∃ rows rows', findRegressions order start before = .ok rows ∧
      findRegressions order start after = .ok rows' ∧
      (∀ x, x ∈ rows ↔ ∃ e e', before.ReportsBetween start e e' x) ∧
      (∀ x, x ∈ rows' ↔ ∃ e e', after.ReportsBetween start e e' x) ∧
      ∀ e e', Spares env us e later → Spares env us e' later →
        ∀ x, after.ReportsBetween start e e' x ↔ before.ReportsBetween start e e' x := by
  intro before after
  have hpositive : before.Positive := (provenance_run pg env us sched).positive
  have hpositive' : after.Positive := (provenance_run pg env us (sched ++ later)).positive
  obtain ⟨rows, hrows, hmem⟩ := findRegressions_ok hpositive order start
  obtain ⟨rows', hrows', hmem'⟩ := findRegressions_ok hpositive' order start
  refine ⟨rows, rows', hrows, hrows', fun x ↦ (hmem x).trans reports_iff,
    fun x ↦ (hmem' x).trans reports_iff, ?_⟩
  intro e e' he he' x
  have hfk : before.ForeignKeys := reached_foreignKeys pg env us sched
  have hsame : before.SameProfile e after := sameProfile_run pg hids sched he
  have hsame' : before.SameProfile e' after := sameProfile_run pg hids sched he'
  refine exists_congr fun p ↦ exists_congr fun q ↦ ?_
  constructor
  · intro hx
    obtain ⟨hp, hq, hpe, hqe, hreg⟩ := hx
    exact ⟨(hsame.presents hfk hpe).mp hp, (hsame'.presents hfk hqe).mp hq, hpe, hqe, hreg⟩
  · intro hx
    obtain ⟨hp, hq, hpe, hqe, hreg⟩ := hx
    exact ⟨(hsame.presents hfk hpe).mpr hp, (hsame'.presents hfk hqe).mpr hq, hpe, hqe, hreg⟩

def twoVersionsAndOther : List Upload :=
  [demoVersion "1" 1 [[[mainFrame]], [[fibFrame], [mainFrame]]],
    demoVersion "2" 2 [[[fibFrame], [mainFrame]], [[fibFrame], [mainFrame]]],
    { demoUpload with args := ⟨2, .cycles, "other", none⟩ }]

theorem regressions_do_not_interfere_demo :
    let run := reached lenientPostgres demoExternals twoVersionsAndOther
    let before := (run [0, 0, 0, 1, 1, 1]).store
    let after := (run ([0, 0, 0, 1, 1, 1] ++ [2, 2, 2])).store
    ∃ rows rows', findRegressions .asIs 0 before = .ok rows ∧
      findRegressions .asIs 0 after = .ok rows' ∧
      (∃ x ∈ rows, x ∈ rows' ∧ before.ReportsBetween 0 295873287 295873288 x) ∧
      ∀ x, after.ReportsBetween 0 295873287 295873288 x ↔
        before.ReportsBetween 0 295873287 295873288 x := by
  intro run before after
  have hids : NodeIdsDistinct demoExternals twoVersionsAndOther := by
    decide +kernel
  have hspares : ∀ e, (∀ u ∈ twoVersionsAndOther[2]?, u.executableId demoExternals ≠ e) →
      Spares demoExternals twoVersionsAndOther e [2, 2, 2] := by
    intro e he i hi
    obtain rfl : i = 2 := by simpa using hi
    exact he
  let a : SymPct := ⟨versionRow 295873287 "1" 1 3 2, fibRow, 1 / 3⟩
  let b : SymPct := ⟨versionRow 295873288 "2" 2 4 2, fibRow, 2 / 4⟩
  have ha : before.Presents a := by
    decide +kernel
  have hb : before.Presents b := by
    decide +kernel
  have hreport : before.ReportsBetween 0 295873287 295873288 (regression a b (pctDiff a b)) :=
    ⟨a, b, ha, hb, rfl, rfl, by decide +kernel, rfl⟩
  obtain ⟨rows, rows', hrows, hrows', hmem, hmem', hsame⟩ := regressions_do_not_interfere
    lenientPostgres hids [0, 0, 0, 1, 1, 1] [2, 2, 2] .asIs 0
  have hspared := hsame 295873287 295873288 (hspares _ (by decide +kernel))
    (hspares _ (by decide +kernel))
  exact ⟨rows, rows', hrows, hrows', ⟨_, (hmem _).mpr ⟨_, _, hreport⟩,
    (hmem' _).mpr ⟨_, _, (hspared _).mpr hreport⟩, hreport⟩, hspared⟩

end Sto
