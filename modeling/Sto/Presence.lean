import Sto.Profiles
import Sto.Regressions

namespace Sto

open Library

variable {env : Externals} {pg : Postgres} {s : System Upload Db SqlError} {us : List Upload}

def recordedOf (env : Externals) (us : List Upload) (e : Int64) :
    List (List (List SymbolizedResult)) :=
  (us.filter fun u ↦ u.executableId env = e).flatMap Upload.symlists

def addressesOf (env : Externals) (us : List Upload) (e : Int64) : ℕ :=
  ((recordedOf env us e).map List.length).sum

def occursIn (env : Externals) (d : Int64) (path : List Frame) : ℕ :=
  path.countP fun f ↦ (dataRow env f).id = d

def hitsOf (env : Externals) (us : List Upload) (e d : Int64) : ℕ :=
  ((samplesOf env us e).map (occursIn env d)).sum

theorem samplesOf_eq (us : List Upload) (e : Int64) :
    samplesOf env us e = (recordedOf env us e).map (resolvedPath env) := by
  rw [samplesOf, recordedOf, List.map_flatMap]
  rfl

theorem sum_recordedOf (us : List Upload) (e : Int64) (w : List (List SymbolizedResult) → ℕ) :
    ((recordedOf env us e).map w).sum =
      (us.map fun u ↦ if u.executableId env = e then (u.symlists.map w).sum else 0).sum := by
  induction us with
  | nil => rfl
  | cons u us ih =>
    rw [recordedOf] at ih ⊢
    by_cases h : u.executableId env = e <;> simp [h, ih]

theorem Provenance.addresses (h : Provenance env s) {r : Executable}
    (hr : r ∈ s.store.executable.rows) :
    r.sampleCount = addressesOf env (s.past 2) r.id := by
  have hweight := h.executable_weight .sampleCount r.id
  rw [Table.weight_of_mem _ hr, executableTotal] at hweight
  rw [hweight, addressesOf, sum_recordedOf, natCast_sum]
  refine congrArg List.sum (List.map_congr_left fun u hu ↦ ?_)
  rw [carried_executable (h.resolves u (past_mono (by omega) hu)), executableRow_count]
  split
  · exact (natCast_sum _ _).symm
  · rfl

theorem countP_pathNodes_data (e d : Int64) (parent : Option Int64) (path : List Frame) :
    (pathNodes env e parent path).countP (Db.ofFrame e d) = occursIn env d path := by
  induction path generalizing parent with
  | nil => rfl
  | cons f path ih =>
    have hof : Db.ofFrame e d (pathNode env e parent f) = decide ((dataRow env f).id = d) := by
      have hexe : (pathNode env e parent f).executableId = e := rfl
      rw [Db.ofFrame, hexe, decide_eq_true rfl, Bool.and_true]
      rfl
    rw [pathNodes, List.countP_cons, ih, occursIn, occursIn, List.countP_cons, hof]

theorem countP_occurrences_data (u : Upload) (e d : Int64) :
    (u.occurrences env).countP (Db.ofFrame e d) =
      if u.executableId env = e then ((u.paths env).map (occursIn env d)).sum else 0 := by
  by_cases hexe : u.executableId env = e
  · rw [if_pos hexe, Upload.occurrences_eq, List.countP_flatMap, hexe]
    exact congrArg List.sum (List.map_congr_left fun path _ ↦ countP_pathNodes_data e d none path)
  · rw [if_neg hexe, List.countP_eq_zero]
    intro n hn hof
    exact hexe ((Upload.occurrence_refs hn).2.2.1.symm.trans (Db.ofFrame_iff.mp hof).2)

theorem choosesByRefs_ofFrame (e d : Int64) : ChoosesByRefs (Db.ofFrame e d) := by
  intro a b _ hdata hexe
  rw [Db.ofFrame, Db.ofFrame, hdata, hexe]

theorem sum_hitsOf (us : List Upload) (e d : Int64) : hitsOf env us e d = (us.map fun u ↦
    if u.executableId env = e then ((u.paths env).map (occursIn env d)).sum else 0).sum := by
  rw [hitsOf, samplesOf_eq, List.map_map, sum_recordedOf]
  refine congrArg List.sum (List.map_congr_left fun u _ ↦ ?_)
  rw [Upload.paths, List.map_map]

theorem Provenance.hits (h : Provenance env s) (hids : NodeIdsDistinct env us)
    (hsub : ∀ u ∈ s.past 3, u ∈ us) (e d : Int64) :
    s.store.hits e d ≤ hitsOf env (s.past 3) e d ∧
      ((∀ u ∈ s.past 3, u.executableId env = e →
        (u.payload env).stackNodes.length ≤ bindLimit / 4) →
          s.store.hits e d = hitsOf env (s.past 3) e d) := by
  have hpayload : ∀ u ∈ s.past 3,
      (((u.payload env).stackNodes.filter (Db.ofFrame e d)).map StackNode.sampleCount).sum =
        ((if u.executableId env = e then ((u.paths env).map (occursIn env d)).sum else 0 : ℕ) :
          ℤ) := by
    intro u hu
    rw [sum_payload_nodes (hids.mono fun v hv ↦ List.mem_singleton.mp hv ▸ hsub u hu)
      (choosesByRefs_ofFrame e d), countP_occurrences_data]
  rw [Db.hits, h.sum_nodes hids hsub (choosesByRefs_ofFrame e d), sum_hitsOf, natCast_sum,
    ← List.map_congr_left hpayload]
  constructor
  · refine List.sum_le_sum fun u _ ↦ ?_
    refine (((List.take_sublist _ _).filter _).map _).sum_le_sum fun x hx ↦ ?_
    obtain ⟨n, hn, rfl⟩ := List.mem_map.mp hx
    exact (payload_count_pos (List.mem_filter.mp hn).1).le
  · intro hlimit
    refine congrArg List.sum (List.map_congr_left fun u hu ↦ ?_)
    by_cases hexe : u.executableId env = e
    · rw [Upload.request_nodes (hlimit u hu hexe)]
    · have hnil : (u.payload env).stackNodes.filter (Db.ofFrame e d) = [] := by
        rw [List.filter_eq_nil_iff]
        intro n hn hof
        exact hexe ((payload_node_executable hn).symm.trans (Db.ofFrame_iff.mp hof).2)
      have hsub : ((u.request env).nodes.filter (Db.ofFrame e d)).Sublist [] :=
        hnil ▸ (List.take_sublist _ _).filter _
      rw [hnil, List.sublist_nil.mp hsub]

theorem Provenance.positive (h : Provenance env s) : s.store.Positive :=
  ⟨fun _ ↦ h.executable_count_pos, fun _ ↦ h.node_count_pos⟩

theorem Db.Positive.presences_ne_zero {db : Db} (h : db.Positive) :
    ∃ sym, symPctPerVersionPerBinary db = .ok sym ∧ ∀ a ∈ sym, a.normalizedPresence ≠ 0 := by
  obtain ⟨sym, hsym, hmem⟩ := symPct_ok fun r hr ↦ (h.executables r hr).ne'
  exact ⟨sym, hsym, fun a ha ↦ (((hmem a).mp ha).pos h).ne'⟩

theorem findRegressions_never_divides_by_zero (pg : Postgres) (env : Externals) (us : List Upload)
    (sched : List ℕ) (order : Arrangement) (start : Timestamp) :
    let db := (reached pg env us sched).store
    (∀ exe ∈ db.executable.rows, 1 ≤ exe.sampleCount) ∧
      (∀ sn ∈ db.stackNode.rows, 1 ≤ sn.sampleCount) ∧
      (∃ sym, symPctPerVersionPerBinary db = .ok sym ∧ ∀ a ∈ sym, a.normalizedPresence ≠ 0) ∧
      ∃ rows, findRegressions order start db = .ok rows := by
  intro db
  have hpositive : db.Positive := (provenance_run pg env us sched).positive
  refine ⟨hpositive.executables, hpositive.nodes, hpositive.presences_ne_zero, ?_⟩
  obtain ⟨rows, hrows, _⟩ := findRegressions_ok hpositive order start
  exact ⟨rows, hrows⟩

def mainFrame : SymbolizedResult := ⟨"main", "/src/main.c", 3⟩

def fibFrame : SymbolizedResult := ⟨"fib", "/src/main.c", 7⟩

def demoVersion (version : String) (createdAt : Timestamp)
    (symlists : List (List (List SymbolizedResult))) : Upload :=
  { demoUpload with
    args := { demoUpload.args with version := some version }
    symlists := symlists
    dbNow := createdAt }

def versionRow (id : Int64) (version : String) (createdAt : Timestamp)
    (samples processed : ℤ) : Executable :=
  ⟨id, "Cycles", some version, "demo", some 0, some createdAt, samples, samples, processed⟩

def fibRow : StackNodeData := ⟨9182844552454380503, "fib", some "/src/main.c", some 7⟩

end Sto
