import Sto.NodeIds
import Sto.Provenance

namespace Sto

open Library

variable {env : Externals} {pg : Postgres} {s : System Upload Db SqlError} {us : List Upload}

theorem carried_executable {u : Upload} (h : u.Resolves env) (c : Executable → ℤ) (k : Int64) :
    carried Executable.id c (u.payload env).profiledBinaries k =
      if u.executableId env = k then c (u.executableRow env) else 0 := by
  by_cases hk : u.executableId env = k
  · subst hk
    rw [if_pos rfl, carried_own h]
  · have hid : (u.executableRow env).id ≠ k := hk
    rw [if_neg hk, carried, Upload.payload_executables, if_neg (Upload.batchStacks_ne h)]
    simp [hid]

theorem executableRow_count (u : Upload) :
    (u.executableRow env).sampleCount =
      (u.symlists.map fun symlist ↦ (symlist.length : ℤ)).sum := by
  have hlen : ((batchStacks u.symlists).length : ℤ) =
      (u.symlists.map fun symlist ↦ (symlist.length : ℤ)).sum := by
    rw [batchStacks]
    induction u.symlists with
    | nil => rfl
    | cons symlist symlists ih =>
      rw [List.flatMap_cons, List.length_append, List.length_reverse, List.map_cons,
        List.sum_cons, ← ih]
      exact Int.natCast_add _ _
  rw [← hlen]
  exact zero_add _

theorem occurrence_of_carried {u : Upload} {k : Int64}
    (h : carried StackNode.id StackNode.sampleCount (u.request env).nodes k ≠ 0) :
    ∃ o ∈ u.occurrences env, o.id = k := by
  have hne : (u.request env).nodes.filter (fun n ↦ n.id = k) ≠ [] := by
    intro hnil
    rw [carried, hnil] at h
    exact h rfl
  obtain ⟨n, hn⟩ := List.exists_mem_of_ne_nil _ hne
  obtain ⟨hmem, hid⟩ := List.mem_filter.mp hn
  obtain ⟨o, ho, hoid, _⟩ := Upload.payload_node_source (Upload.mem_request_nodes hmem)
  exact ⟨o, ho, hoid.trans (of_decide_eq_true hid)⟩

/-- The counts of every row are those of the uploads that share a label with the row of the
executable, and of no others. -/
structure CountsOnly {τ : Type} [DecidableEq τ] (env : Externals) (label : Upload → τ)
    (rowLabel : Executable → τ) (s : System Upload Db SqlError) : Prop where
  executables : ∀ r ∈ s.store.executable.rows, ∀ c ∈ counters,
    c r = executableTotal env c ((s.past 2).filter fun u ↦ label u = rowLabel r) r.id
  nodes : ∀ n ∈ s.store.stackNode.rows, ∃ r ∈ s.store.executable.rows, r.id = n.executableId ∧
    n.sampleCount = requestTotal env ((s.past 3).filter fun u ↦ label u = rowLabel r) n.id

section Labels

variable {τ : Type} [DecidableEq τ] {label : Upload → τ} {rowLabel : Executable → τ}

theorem not_countsOnly
    (h : ∃ r ∈ s.store.executable.rows, r.sampleCount ≠ executableTotal env Executable.sampleCount
      ((s.past 2).filter fun u ↦ label u = rowLabel r) r.id) :
    ¬ CountsOnly env label rowLabel s := by
  obtain ⟨r, hr, hne⟩ := h
  exact fun h ↦ hne (h.executables r hr _ (by simp [counters]))

theorem Provenance.executable_counts_iff (h : Provenance env s) {r : Executable}
    (hr : r ∈ s.store.executable.rows) {c : Executable → ℤ} (hc : c ∈ counters) (x : τ) :
    c r = executableTotal env c ((s.past 2).filter fun u ↦ label u = x) r.id ↔
      ∀ u ∈ s.past 2, carried Executable.id c (u.payload env).profiledBinaries r.id ≠ 0 →
        label u = x := by
  have hweight := h.executable_weight (counter_of_mem hc) r.id
  rw [Table.weight_of_mem c hr] at hweight
  have hiff := sum_filter_eq_iff (p := fun u ↦ decide (label u = x))
    fun u (_ : u ∈ s.past 2) ↦ @carried_executables_nonneg env _ (counter_of_mem hc) u r.id
  simp only [decide_eq_true_eq] at hiff
  rw [hweight, eq_comm]
  exact hiff

theorem Provenance.node_count_eq (h : Provenance env s) (hids : NodeIdsDistinct env us)
    (hsub : ∀ u ∈ s.past 3, u ∈ us) {n : StackNode} (hn : n ∈ s.store.stackNode.rows) {x : τ}
    (hlabel : ∀ u ∈ s.past 3, u.executableId env = n.executableId → label u = x) :
    n.sampleCount = requestTotal env ((s.past 3).filter fun u ↦ label u = x) n.id := by
  have hweight := h.node_weight n.id
  rw [Table.weight_of_mem _ hn] at hweight
  rw [hweight]
  refine ((sum_filter_eq_iff fun u _ ↦ (carried_nodes_request u n.id).1).mpr
    fun u hu hne ↦ decide_eq_true (hlabel u hu ?_)).symm
  obtain ⟨w, hw, o, ho, hoid, hoexe⟩ := h.node_row hn
  obtain ⟨o', ho', hoid'⟩ := occurrence_of_carried hne
  have hexe := (hids o' (List.mem_flatMap.mpr ⟨u, hsub u hu, ho'⟩) o
    (List.mem_flatMap.mpr ⟨w, hsub w hw, ho⟩) (hoid'.trans hoid.symm)).2.2
  rw [← hoexe, ← hexe, (Upload.occurrence_refs ho').2.2.1]

theorem Provenance.counts_only_iff (h : Provenance env s) (hids : NodeIdsDistinct env us)
    (hsub : ∀ u ∈ s.past 3, u ∈ us)
    (hlabel : ∀ r ∈ s.store.executable.rows,
      ∃ u ∈ s.past 2, u.executableId env = r.id ∧ label u = rowLabel r) :
    CountsOnly env label rowLabel s ↔ ∀ u ∈ s.past 2, ∀ v ∈ s.past 2,
      u.executableId env = v.executableId env → label u = label v := by
  have hres : ∀ u ∈ s.past 2, u.Resolves env := fun u hu ↦ h.resolves u (past_mono (by omega) hu)
  constructor
  · intro hcounts u hu v hv hid
    obtain ⟨r, hr, hrid⟩ := Table.has_iff.mp (h.has_executable hu)
    have hmem : Executable.sampleCount ∈ counters := by simp [counters]
    have hown := (h.executable_counts_iff hr hmem _).mp (hcounts.executables r hr _ hmem)
    have hsame : ∀ w ∈ s.past 2, w.executableId env = r.id → label w = rowLabel r := by
      intro w hw hwid
      apply hown w hw
      rw [carried_executable (hres w hw), if_pos hwid]
      exact (executableRow_count_pos (Upload.batchStacks_ne (hres w hw))).ne'
    rw [hsame u hu hrid.symm, hsame v hv (hid.symm.trans hrid.symm)]
  · intro hsame
    have hrow : ∀ r ∈ s.store.executable.rows, ∀ u ∈ s.past 2, u.executableId env = r.id →
        label u = rowLabel r := by
      intro r hr u hu hid
      obtain ⟨v, hv, hvid, hvlabel⟩ := hlabel r hr
      rw [← hvlabel]
      exact hsame u hu v hv (hid.trans hvid.symm)
    refine ⟨fun r hr c hc ↦ (h.executable_counts_iff hr hc _).mpr fun u hu hne ↦ ?_,
      fun n hn ↦ ?_⟩
    · rw [carried_executable (hres u hu)] at hne
      apply hrow r hr u hu
      by_contra hother
      exact hne (if_neg hother)
    · obtain ⟨w, hw, o, ho, _, hoexe⟩ := h.node_row hn
      obtain ⟨r, hr, hrid⟩ := Table.has_iff.mp (h.has_executable (past_mono (by omega) hw))
      have hid : r.id = n.executableId :=
        hrid.trans ((Upload.occurrence_refs ho).2.2.1.symm.trans hoexe)
      exact ⟨r, hr, hid, h.node_count_eq hids hsub hn fun u hu hexe ↦
        hrow r hr u (past_mono (by omega) hu) (hexe.trans hid.symm)⟩

end Labels

def Upload.release (u : Upload) : String × Option String := (u.args.binary, u.args.version)

def Executable.release (r : Executable) : String × Option String := (r.basename, r.buildId)

/-- The binary and the version as the hasher gets them, one right after the other. -/
def Upload.spelled (u : Upload) : String := u.args.binary ++ u.args.version.getD ""

def nameStrings (us : List Upload) : List (List UInt8) := us.map fun u ↦ utf8 u.spelled

theorem executableId_eq (u : Upload) : u.executableId env = miscId env u.spelled := by
  rw [Upload.executableId, executableOf, Upload.spelled]
  cases u.args.version with
  | none => exact congrArg (miscId env) String.append_empty.symm
  | some version => rfl

theorem CollisionFree.executableIds (h : CollisionFree env (nameStrings us)) {u v : Upload}
    (hu : u ∈ us) (hv : v ∈ us) :
    u.executableId env = v.executableId env ↔ u.spelled = v.spelled := by
  rw [executableId_eq, executableId_eq]
  constructor
  · intro hid
    exact utf8_inj.mp (h _ (List.mem_map_of_mem hu) _ (List.mem_map_of_mem hv) hid)
  · intro hspelled
    rw [hspelled]

theorem counts_only_iff_spelled (hnames : CollisionFree env (nameStrings us))
    (hnodes : CollisionFree env (nodeStrings env us)) (sched : List ℕ) {τ : Type} [DecidableEq τ]
    {label : Upload → τ} {rowLabel : Executable → τ}
    (hlabel : ∀ r ∈ (reached pg env us sched).store.executable.rows,
      ∃ u ∈ (reached pg env us sched).past 2, u.executableId env = r.id ∧ label u = rowLabel r) :
    CountsOnly env label rowLabel (reached pg env us sched) ↔
      ∀ u ∈ (reached pg env us sched).past 2, ∀ v ∈ (reached pg env us sched).past 2,
        u.spelled = v.spelled → label u = label v := by
  rw [(provenance_run pg env us sched).counts_only_iff hnodes.nodeIds
    (fun u hu ↦ past_subset pg env us sched hu) hlabel]
  refine forall₂_congr fun u hu ↦ forall₂_congr fun v hv ↦ ?_
  rw [hnames.executableIds (past_subset pg env us sched hu) (past_subset pg env us sched hv)]

/-- Profiles are kept apart exactly as long as no two of the stored batches have different
names and versions that spell the same text. -/
theorem releases_are_kept_apart_iff (pg : Postgres) (hnames : CollisionFree env (nameStrings us))
    (hnodes : CollisionFree env (nodeStrings env us)) :
    (∀ u ∈ us, ∀ v ∈ us, u.release ≠ v.release →
      (u.executableId env ≠ v.executableId env ↔ u.spelled ≠ v.spelled)) ∧
    ∀ sched, let s := reached pg env us sched
      CountsOnly env Upload.release Executable.release s ↔
        ∀ u ∈ s.past 2, ∀ v ∈ s.past 2, u.release ≠ v.release → u.spelled ≠ v.spelled := by
  refine ⟨fun u hu v hv _ ↦ not_congr (hnames.executableIds hu hv), fun sched ↦ ?_⟩
  refine (counts_only_iff_spelled hnames hnodes sched fun r hr ↦ ?_).trans
    (forall₂_congr fun u _ ↦ forall₂_congr fun v _ ↦ not_imp_not.symm)
  obtain ⟨u, hu, hid, hname, hversion, _⟩ := (provenance_run pg env us sched).executable_row hr
  exact ⟨u, hu, hid, Prod.ext hname hversion⟩

def app2Uploads : List Upload :=
  [{ demoUpload with args := ⟨1, .cycles, "app2", none⟩ },
    { demoUpload with args := ⟨1, .cycles, "app", some "2"⟩ }]

theorem merges_app2_and_app_2 :
    let s := reached lenientPostgres demoExternals app2Uploads [0, 0, 0, 1, 1, 1]
    CollisionFree demoExternals (nameStrings app2Uploads) ∧
      CollisionFree demoExternals (nodeStrings demoExternals app2Uploads) ∧
      (∃ u ∈ app2Uploads, ∃ v ∈ app2Uploads, u.release ≠ v.release ∧
        u.executableId demoExternals = v.executableId demoExternals) ∧
      ¬ CountsOnly demoExternals Upload.release Executable.release s := by
  intro s
  refine ⟨?_, ?_, by decide +kernel, not_countsOnly (by decide +kernel)⟩
  · decide +kernel
  · decide +kernel

def twoReleases : List Upload :=
  [{ demoUpload with args := ⟨1, .cycles, "app", some "1"⟩ },
    { demoUpload with args := ⟨1, .cycles, "app", some "2"⟩ }]

theorem releases_are_kept_apart_iff_demo :
    (∀ u ∈ twoReleases, ∀ v ∈ twoReleases, u.release ≠ v.release →
      u.executableId demoExternals ≠ v.executableId demoExternals) ∧
    CountsOnly demoExternals Upload.release Executable.release
      (reached lenientPostgres demoExternals twoReleases [0, 1, 1, 0, 1, 0]) := by
  have hnames : CollisionFree demoExternals (nameStrings twoReleases) := by
    decide +kernel
  have hnodes : CollisionFree demoExternals (nodeStrings demoExternals twoReleases) := by
    decide +kernel
  obtain ⟨hids, hiff⟩ := releases_are_kept_apart_iff lenientPostgres hnames hnodes
  refine ⟨fun u hu v hv hne ↦ (hids u hu v hv hne).mpr ?_, (hiff _).mpr ?_⟩
  · have hspelled : ∀ u ∈ twoReleases, ∀ v ∈ twoReleases, u.release ≠ v.release →
        u.spelled ≠ v.spelled := by
      decide +kernel
    exact hspelled u hu v hv hne
  · decide +kernel

theorem EventType.toString_inj {a b : EventType} : a.toString = b.toString ↔ a = b := by
  cases a <;> cases b <;> decide

/-- Event types are kept apart exactly as long as the stored batches of one program and
version were all recorded with the same one. The order of arrival does not matter then. -/
theorem events_are_kept_apart_iff (pg : Postgres) (hnames : CollisionFree env (nameStrings us))
    (hnodes : CollisionFree env (nodeStrings env us)) :
    (∀ sched, let s := reached pg env us sched
      CountsOnly env (fun u ↦ u.args.eventType.toString) Executable.event s ↔
        ∀ u ∈ s.past 2, ∀ v ∈ s.past 2, u.spelled = v.spelled →
          u.args.eventType = v.args.eventType) ∧
    ((∀ u ∈ us, ∀ v ∈ us, u.spelled = v.spelled → u.args.eventType = v.args.eventType) →
      ∀ sched sched', ∀ r ∈ (reached pg env us sched).store.executable.rows,
        ∀ r' ∈ (reached pg env us sched').store.executable.rows, r.id = r'.id →
          r.event = r'.event) := by
  refine ⟨fun sched ↦ ?_, fun hsame sched sched' r hr r' hr' hid ↦ ?_⟩
  · refine (counts_only_iff_spelled hnames hnodes sched fun r hr ↦ ?_).trans
      (forall₂_congr fun u _ ↦ forall₂_congr fun v _ ↦ imp_congr_right fun _ ↦
        EventType.toString_inj)
    obtain ⟨u, hu, hid, _, _, hevent⟩ := (provenance_run pg env us sched).executable_row hr
    exact ⟨u, hu, hid, hevent⟩
  · obtain ⟨u, hu, hrid, _, _, hevent⟩ := (provenance_run pg env us sched).executable_row hr
    obtain ⟨v, hv, hrid', _, _, hevent'⟩ := (provenance_run pg env us sched').executable_row hr'
    have hu' := past_subset pg env us sched hu
    have hv' := past_subset pg env us sched' hv
    have hspelled := (hnames.executableIds hu' hv').mp (hrid.trans (hid.trans hrid'.symm))
    rw [← hevent, ← hevent', hsame u hu' v hv' hspelled]

def cyclesAndClock : List Upload :=
  [demoUpload, { demoUpload with args := ⟨1, .clock, "demo", none⟩ }]

theorem merges_cycles_and_clock :
    let s := reached lenientPostgres demoExternals cyclesAndClock [0, 0, 0, 1, 1, 1]
    let s' := reached lenientPostgres demoExternals cyclesAndClock [1, 1, 1, 0, 0, 0]
    CollisionFree demoExternals (nameStrings cyclesAndClock) ∧
      CollisionFree demoExternals (nodeStrings demoExternals cyclesAndClock) ∧
      ¬ CountsOnly demoExternals (fun u ↦ u.args.eventType.toString) Executable.event s ∧
      ∃ r ∈ s.store.executable.rows, ∃ r' ∈ s'.store.executable.rows, r.id = r'.id ∧
        r.event ≠ r'.event := by
  intro s s'
  refine ⟨?_, ?_, not_countsOnly (by decide +kernel), by decide +kernel⟩
  · decide +kernel
  · decide +kernel

def cyclesAndClockApart : List Upload :=
  [demoUpload, { demoUpload with args := ⟨2, .clock, "other", none⟩ }]

theorem events_are_kept_apart_iff_demo :
    CountsOnly demoExternals (fun u ↦ u.args.eventType.toString) Executable.event
      (reached lenientPostgres demoExternals cyclesAndClockApart [0, 1, 1, 0, 1, 0]) ∧
    ∀ sched sched',
      ∀ r ∈ (reached lenientPostgres demoExternals cyclesAndClockApart sched).store.executable.rows,
      ∀ r' ∈ (reached lenientPostgres demoExternals cyclesAndClockApart
        sched').store.executable.rows, r.id = r'.id → r.event = r'.event := by
  have hnames : CollisionFree demoExternals (nameStrings cyclesAndClockApart) := by
    decide +kernel
  have hnodes : CollisionFree demoExternals (nodeStrings demoExternals cyclesAndClockApart) := by
    decide +kernel
  obtain ⟨hiff, horder⟩ := events_are_kept_apart_iff lenientPostgres hnames hnodes
  refine ⟨(hiff _).mpr ?_, horder ?_⟩
  · decide +kernel
  · decide +kernel

end Sto
