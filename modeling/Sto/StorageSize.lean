import Sto.Profiles

namespace Sto

open Library

variable {env : Externals} {pg : Postgres} {s : System Upload Db SqlError} {us : List Upload}
  {u : Upload} {e : Int64}

/-- What is known of deepsize: the value itself and every row that it holds take room, of
which a row's counters and time stamps decide nothing. -/
structure RowSizes (stoSize : StoData → ℕ) where
  base : ℕ
  node : StackNode → ℕ
  data : StackNodeData → ℕ
  executable : Executable → ℕ
  base_pos : 0 < base
  node_pos : ∀ n, 0 < node n
  data_pos : ∀ d, 0 < data d
  executable_pos : ∀ x, 0 < executable x
  node_counter : ∀ n c, node { n with sampleCount := c } = node n
  executable_counters : ∀ x updatedAt createdAt samples raw processed,
    executable ⟨x.id, x.event, x.buildId, x.basename, updatedAt, createdAt, samples, raw,
      processed⟩ = executable x
  stoSize_eq : ∀ p : StoData, stoSize p = base + (p.stackNodes.map node).sum +
    (p.stackNodeDatas.map data).sum + (p.profiledBinaries.map executable).sum

def Db.contents (db : Db) : StoData :=
  ⟨db.stackNode.rows, db.stackNodeData.rows, db.executable.rows⟩

def Settled (s : System Upload Db SqlError) : Prop := ∀ j ∈ s.jobs, j.stage = 0 ∨ 3 ≤ j.stage

theorem Settled.past (h : Settled s) {k : ℕ} (hpos : 0 < k) (hk : k ≤ 3) :
    s.past k = s.past 3 := by
  apply congrArg (List.map Job.request)
  apply List.filter_congr
  intro j hj
  have := h j hj
  exact decide_eq_decide.mpr (by omega)

def FramesReplay (env : Externals) (s : System Upload Db SqlError) : Prop :=
  ∃ us : List Upload, us.Perm (s.past 1) ∧ s.store.stackNodeData =
    Table.empty.upsertAll .first (us.flatMap fun u ↦ (u.request env).datas)

theorem FramesReplay.frameRows (h : FramesReplay env s) :
    FrameRows env s.store.stackNodeData.rows := by
  intro d hd
  obtain ⟨us, _, htable⟩ := h
  rw [htable] at hd
  obtain ⟨⟨⟩⟩ | hd := mem_upsertAll_first hd
  obtain ⟨u, _, hd⟩ := List.mem_flatMap.mp hd
  exact frameRows_payload u d (Upload.mem_request_datas hd)

theorem FramesReplay.commit (h : FramesReplay env s) {i : ℕ} {j : Job Upload SqlError}
    {tx : Db → Except SqlError Db} {st : Db} (hj : s.jobs[i]? = some j)
    (htx : (program pg env j.request)[j.stage]? = some tx) (hst : tx s.store = .ok st) :
    FramesReplay env ⟨st, s.jobs.set i { j with stage := j.stage + 1 }⟩ := by
  have hframes := (h.frameRows.append j.request).underOneId
  obtain ⟨us, hus, htable⟩ := h
  obtain ⟨u, n, err⟩ := j
  dsimp only at htx hframes
  obtain ⟨hn, rfl⟩ | ⟨hn, rfl⟩ | ⟨hn, rfl⟩ := program_cases htx <;> subst hn
  · obtain rfl := insertStackNodeData_eq hframes hst
    refine ⟨us ++ [u], exists_order hj _ hus, ?_⟩
    rw [List.flatMap_append, Table.upsertAll_append, List.flatMap_singleton, ← htable]
  · obtain ⟨_, _, _, rfl⟩ := insertExecutable_ok.mp hst
    refine ⟨us, ?_, htable⟩
    simpa only [System.past_commit_ne hj _ (show 1 ≠ 1 + 1 by omega)] using hus
  · obtain ⟨_, _, _, rfl, _⟩ := insertStackNode_ok.mp hst
    refine ⟨us, ?_, htable⟩
    simpa only [System.past_commit_ne hj _ (show 1 ≠ 2 + 1 by omega)] using hus

theorem framesReplay_run (pg : Postgres) (env : Externals) (us : List Upload) (sched : List ℕ) :
    FramesReplay env (reached pg env us sched) := by
  refine (System.run_induction (P := FramesReplay env)
    ⟨[], by rw [System.past_start], rfl⟩ ?_ ?_ sched).1
  · intro s i j tx st h _ hj _ htx hst
    exact h.commit hj htx hst
  · intro s i j tx err h _ hj _ _ _
    simpa only [FramesReplay, System.past_fail hj] using h

/-- What the client has at hand when it measures its batch: the executable's row does not hold
the size yet. -/
def Upload.measured (env : Externals) (u : Upload) : StoData :=
  (gather env u.args u.symlists).dataOut u.order

theorem measured_executables (h : u.Resolves env) : (u.measured env).profiledBinaries =
    [hits env (executableOf env u.args) (batchStacks u.symlists)] := by
  have hmap : (gather env u.args u.symlists).executableMap =
      hitsMap env (executableOf env u.args) (batchStacks u.symlists) := by rw [gather_eq]
  change u.order.arrange (gather env u.args u.symlists).executableMap.rows = _
  rw [hmap, hitsMap, if_neg (Upload.batchStacks_ne h)]
  exact u.order.arrange_singleton _

theorem Provenance.processed (h : Provenance env s) (hexe : ∀ u ∈ s.past 2, u.executableId env = e)
    {r : Executable} (hr : r ∈ s.store.executable.rows) :
    r.processedDataSize = (((s.past 2).map fun u ↦ env.stoSize (u.measured env)).sum : ℕ) := by
  have hid : r.id = e := by
    obtain ⟨u, hu, hid, _⟩ := h.executable_row hr
    exact hid.symm.trans (hexe u hu)
  have hweight := h.executable_weight .processedDataSize r.id
  rw [Table.weight_of_mem _ hr, executableTotal] at hweight
  rw [hweight, natCast_sum]
  apply congrArg List.sum
  apply List.map_congr_left
  intro u hu
  rw [carried_executable (h.resolves u (past_mono (by omega) hu)), hid, if_pos (hexe u hu)]
  rfl

theorem Provenance.one_executable (h : Provenance env s)
    (hexe : ∀ u ∈ s.past 2, u.executableId env = e) (hne : s.past 2 ≠ []) :
    ∃ r, s.store.executable.rows = [r] ∧ r.id = e := by
  obtain ⟨u, hu⟩ := List.exists_mem_of_ne_nil _ hne
  obtain ⟨r, hr, hid⟩ := Table.has_iff.mp (h.has_executable hu)
  have hrid : r.id = e := hid.trans (hexe u hu)
  refine ⟨r, ?_, hrid⟩
  have hall : ∀ x ∈ s.store.executable.rows, x.id = r.id := by
    intro x hx
    obtain ⟨v, hv, hvid, _⟩ := h.executable_row hx
    rw [hrid, ← hvid, hexe v hv]
  rw [← Table.filter_of_nodup s.store.executable.nodup hr, List.filter_eq_self.mpr]
  exact fun x hx ↦ decide_eq_true (hall x hx)

section Replayed

variable {κ ρ : Type} [DecidableEq κ] {key : ρ → κ} {m : Merge key} {c : ρ → ℕ} {vs : List Upload}

theorem sum_replayed_le (hc : ∀ a b, c (m.op a b) = c a) (h : vs.Perm us) (rows : Upload → List ρ) :
    ((Table.empty.upsertAll m (vs.flatMap rows)).rows.map c).sum ≤
      (us.map fun u ↦ ((rows u).map c).sum).sum := by
  calc
    _ ≤ ((vs.flatMap rows).map c).sum :=
      (Table.sum_upsertAll_le m hc .empty _).trans_eq (zero_add _)
    _ = (vs.map fun u ↦ ((rows u).map c).sum).sum := sum_map_flatMap _ _ _
    _ = _ := (h.map _).sum_eq

theorem sum_replayed_one (h : vs.Perm [u]) {rows : Upload → List ρ}
    (hn : ((rows u).map key).Nodup) :
    ((Table.empty.upsertAll m (vs.flatMap rows)).rows.map c).sum = ((rows u).map c).sum := by
  rw [List.perm_singleton.mp h, List.flatMap_singleton]
  exact Table.sum_upsertAll_nodup m c hn

end Replayed

namespace RowSizes

variable (sizes : RowSizes env.stoSize)

def nodes (ns : List StackNode) : ℕ := (ns.map sizes.node).sum

def datas (ds : List StackNodeData) : ℕ := (ds.map sizes.data).sum

theorem measured (h : u.Resolves env) : env.stoSize (u.measured env) =
    sizes.base + sizes.nodes (u.payload env).stackNodes +
      sizes.datas (u.payload env).stackNodeDatas + sizes.executable (u.executableRow env) := by
  rw [sizes.stoSize_eq, measured_executables h, List.map_singleton, List.sum_singleton]
  rw [← sizes.executable_counters (u.executableRow env) none none]
  rfl

theorem add_executable (a b : Executable) :
    sizes.executable (addExecutable.op a b) = sizes.executable a :=
  sizes.executable_counters a _ _ _ _ _

theorem stored_executable (h : Provenance env s) {r : Executable}
    (hr : r ∈ s.store.executable.rows) :
    ∃ u ∈ s.past 2, sizes.executable r = sizes.executable (u.executableRow env) := by
  obtain ⟨us, hus, htable⟩ := h.executables
  rw [htable] at hr
  obtain ⟨y, ⟨⟨⟩⟩ | hy, _, hsize⟩ := Table.exists_source sizes.add_executable hr
  obtain ⟨u, hu, hy⟩ := List.mem_flatMap.mp hy
  have hu := hus.mem_iff.mp hu
  rw [h.request_executables hu, List.mem_singleton] at hy
  refine ⟨u, hu, hsize.symm.trans ?_⟩
  rw [hy]
  exact sizes.executable_counters (u.executableRow env) _ _ _ _ _

theorem stored_executables (h : Provenance env s) (hexe : ∀ u ∈ s.past 2, u.executableId env = e)
    (hne : s.past 2 ≠ []) : ∃ u ∈ s.past 2,
      (s.store.executable.rows.map sizes.executable).sum =
        sizes.executable (u.executableRow env) := by
  obtain ⟨r, hrows, _⟩ := h.one_executable hexe hne
  obtain ⟨u, hu, hsize⟩ :=
    sizes.stored_executable h (hrows ▸ List.mem_singleton_self r : r ∈ s.store.executable.rows)
  refine ⟨u, hu, ?_⟩
  rw [hrows, List.map_singleton, List.sum_singleton, hsize]

theorem stored_nodes_le (h : Provenance env s) : sizes.nodes s.store.stackNode.rows ≤
    ((s.past 3).map fun u ↦ sizes.nodes (u.request env).nodes).sum := by
  obtain ⟨us, hus, htable⟩ := h.nodes
  rw [htable]
  exact sum_replayed_le (fun a b ↦ sizes.node_counter a _) hus _

theorem stored_datas_le (h : FramesReplay env s) : sizes.datas s.store.stackNodeData.rows ≤
    ((s.past 1).map fun u ↦ sizes.datas (u.request env).datas).sum := by
  obtain ⟨us, hus, htable⟩ := h
  rw [htable]
  exact sum_replayed_le (fun _ _ ↦ rfl) hus _

theorem stored_nodes_eq (h : Provenance env s) (hone : s.past 3 = [u]) :
    sizes.nodes s.store.stackNode.rows = sizes.nodes (u.request env).nodes := by
  obtain ⟨us, hus, htable⟩ := h.nodes
  rw [htable]
  exact sum_replayed_one (hone ▸ hus) u.request_nodes_nodup

theorem stored_datas_eq (h : FramesReplay env s) (hone : s.past 1 = [u]) :
    sizes.datas s.store.stackNodeData.rows = sizes.datas (u.request env).datas := by
  obtain ⟨us, hus, htable⟩ := h
  rw [htable]
  exact sum_replayed_one (hone ▸ hus)
    (u.datas_nodup.sublist ((List.take_sublist _ _).map _))

theorem contents (db : Db) : env.stoSize db.contents =
    sizes.base + sizes.nodes db.stackNode.rows + sizes.datas db.stackNodeData.rows +
      (db.executable.rows.map sizes.executable).sum := sizes.stoSize_eq _

theorem nodes_split (ns : List StackNode) (n : ℕ) :
    sizes.nodes (ns.take n) + sizes.nodes (ns.drop n) = sizes.nodes ns :=
  sum_take_add_sum_drop _ _ _

theorem datas_split (ds : List StackNodeData) (n : ℕ) :
    sizes.datas (ds.take n) + sizes.datas (ds.drop n) = sizes.datas ds :=
  sum_take_add_sum_drop _ _ _

theorem request_nodes_le (u : Upload) :
    sizes.nodes (u.request env).nodes ≤ sizes.nodes (u.payload env).stackNodes := by
  rw [← sizes.nodes_split (u.payload env).stackNodes (bindLimit / 4)]
  exact Nat.le_add_right _ _

theorem request_datas_le (u : Upload) :
    sizes.datas (u.request env).datas ≤ sizes.datas (u.payload env).stackNodeDatas := by
  rw [← sizes.datas_split (u.payload env).stackNodeDatas (bindLimit / 4)]
  exact Nat.le_add_right _ _

theorem sum_measured (hres : ∀ u ∈ us, u.Resolves env) :
    (us.map fun u ↦ env.stoSize (u.measured env)).sum = us.length * sizes.base +
      (us.map fun u ↦ sizes.nodes (u.payload env).stackNodes).sum +
      (us.map fun u ↦ sizes.datas (u.payload env).stackNodeDatas).sum +
      (us.map fun u ↦ sizes.executable (u.executableRow env)).sum := by
  induction us with
  | nil => simp
  | cons u us ih =>
    have hrest := ih fun v hv ↦ hres v (List.mem_cons_of_mem u hv)
    have hhead := sizes.measured (hres u List.mem_cons_self)
    simp only [List.map_cons, List.sum_cons, List.length_cons, Nat.succ_mul]
    omega

end RowSizes

theorem measured_le_stored_iff (sizes : RowSizes env.stoSize) (hp : Provenance env s)
    (hf : FramesReplay env s) (h : Settled s) (hone : s.past 3 = [u]) :
    env.stoSize (u.measured env) ≤ env.stoSize s.store.contents ↔ u.WithinLimit env := by
  have h1 : s.past 1 = [u] := (h.past (by omega) (by omega)).trans hone
  have h2 : s.past 2 = [u] := (h.past (by omega) (by omega)).trans hone
  have hexe : ∀ v ∈ s.past 2, v.executableId env = u.executableId env := by
    intro v hv
    rw [h2, List.mem_singleton] at hv
    rw [hv]
  obtain ⟨v, hv, hexecutable⟩ := sizes.stored_executables hp hexe (h2 ▸ List.cons_ne_nil _ _)
  rw [h2, List.mem_singleton] at hv
  subst hv
  have hres := hp.resolves v (h1 ▸ List.mem_singleton_self v)
  have hnodes := sizes.nodes_split (v.payload env).stackNodes (bindLimit / 4)
  have hdatas := sizes.datas_split (v.payload env).stackNodeDatas (bindLimit / 4)
  have hcut := sum_drop_eq_zero sizes.node_pos (v.payload env).stackNodes (bindLimit / 4)
  have hcut' := sum_drop_eq_zero sizes.data_pos (v.payload env).stackNodeDatas (bindLimit / 4)
  rw [sizes.measured hres, sizes.contents, hexecutable, sizes.stored_nodes_eq hp hone,
    sizes.stored_datas_eq hf h1, Upload.WithinLimit, ← hcut, ← hcut', ← hnodes, ← hdatas]
  change _ + _ + _ + _ ≤ sizes.base + sizes.nodes ((v.payload env).stackNodes.take _) +
    sizes.datas ((v.payload env).stackNodeDatas.take _) + _ ↔ sizes.nodes _ = 0 ∧ sizes.datas _ = 0
  omega

/-- Two batches measure more than what they store between them. -/
theorem stored_lt_measured (sizes : RowSizes env.stoSize) (hp : Provenance env s)
    (hf : FramesReplay env s) (h : Settled s) (hexe : ∀ u ∈ s.past 2, u.executableId env = e)
    (hlen : 2 ≤ (s.past 2).length) :
    env.stoSize s.store.contents < ((s.past 2).map fun u ↦ env.stoSize (u.measured env)).sum := by
  have hpast : ∀ k, 0 < k → k ≤ 3 → s.past k = s.past 2 := fun k hpos hk ↦
    (h.past hpos hk).trans (h.past (by omega) (by omega)).symm
  have hnodes := sizes.stored_nodes_le hp
  have hdatas := sizes.stored_datas_le hf
  have hresolves := hp.resolves
  rw [hpast 1 (by omega) (by omega)] at hdatas hresolves
  rw [hpast 3 (by omega) (by omega)] at hnodes
  obtain ⟨v, hv, hsum⟩ := sizes.stored_executables hp hexe (List.length_pos_iff.mp (by omega))
  have hexecutable := List.single_le_sum (fun _ _ ↦ Nat.zero_le _) _
    (List.mem_map_of_mem (f := fun u ↦ sizes.executable (u.executableRow env)) hv)
  have hcut := List.sum_le_sum (l := s.past 2) fun u _ ↦ sizes.request_nodes_le u
  have hcut' := List.sum_le_sum (l := s.past 2) fun u _ ↦ sizes.request_datas_le u
  -- the value itself is counted once for each batch, and there are two
  have hbase : 2 * sizes.base ≤ (s.past 2).length * sizes.base := Nat.mul_le_mul_right _ hlen
  have hpos := sizes.base_pos
  rw [sizes.sum_measured hresolves, sizes.contents, hsum]
  omega

theorem processed_le_iff (h : Provenance env s) (hexe : ∀ u ∈ s.past 2, u.executableId env = e)
    (hne : s.past 2 ≠ []) {n : ℕ} :
    (∀ r ∈ s.store.executable.rows, r.processedDataSize ≤ n) ↔
      ((s.past 2).map fun u ↦ env.stoSize (u.measured env)).sum ≤ n := by
  obtain ⟨r, hrows, _⟩ := h.one_executable hexe hne
  rw [hrows, List.forall_mem_singleton, h.processed hexe (hrows ▸ List.mem_singleton_self r),
    Int.ofNat_le]

theorem Settled.processed_le_stored_iff (h : Settled s) (sizes : RowSizes env.stoSize)
    (hp : Provenance env s) (hf : FramesReplay env s)
    (hexe : ∀ u ∈ s.past 2, u.executableId env = e) :
    (∀ r ∈ s.store.executable.rows, r.processedDataSize ≤ env.stoSize s.store.contents) ↔
      (s.past 3).length ≤ 1 ∧ ∀ u ∈ s.past 3, u.WithinLimit env := by
  have h23 : s.past 2 = s.past 3 := h.past (by omega) (by omega)
  cases hlist : s.past 3 with
  | nil =>
    refine iff_of_true (fun r hr ↦ ?_) ⟨Nat.zero_le _, fun u hu ↦ (by cases hu)⟩
    obtain ⟨u, hu, _⟩ := hp.executable_row hr
    rw [h23, hlist] at hu
    cases hu
  | cons u rest =>
    rw [processed_le_iff hp hexe (h23 ▸ hlist ▸ List.cons_ne_nil u rest)]
    cases rest with
    | nil =>
      have hiff := measured_le_stored_iff sizes hp hf h hlist
      simpa [h23, hlist] using hiff
    | cons v rest =>
      have hlen : 2 ≤ (s.past 2).length := by simp [h23, hlist]
      refine iff_of_false (Nat.not_le.mpr (stored_lt_measured sizes hp hf h hexe hlen)) ?_
      exact fun hx ↦ absurd hx.1 (by simp)

theorem settled_of_acknowledged {sched : List ℕ}
    (h : Acknowledged pg env (reached pg env us sched)) : Settled (reached pg env us sched) := by
  intro j hj
  obtain ⟨hnone, hnext⟩ := h j hj
  rw [Job.next, hnone] at hnext
  exact .inr (List.getElem?_eq_none_iff.mp hnext)

/-- The figure that is shown for an executable is within what is stored for it exactly where
a single batch has been taken in, and in whole. -/
theorem processed_size_within_stored_iff (sizes : RowSizes env.stoSize)
    (hexe : ∀ u ∈ us, u.executableId env = e) {sched : List ℕ}
    (h : Acknowledged pg env (reached pg env us sched)) :
    let db := (reached pg env us sched).store
    (∀ r ∈ db.executable.rows, r.processedDataSize ≤ env.stoSize db.contents) ↔
      us.length ≤ 1 ∧ ∀ u ∈ us, u.WithinLimit env := by
  have hiff := (settled_of_acknowledged h).processed_le_stored_iff sizes
    (provenance_run pg env us sched) (framesReplay_run pg env us sched)
    fun u hu ↦ hexe u (past_subset pg env us sched hu)
  rwa [past_of_acknowledged h le_rfl] at hiff

def heapOf (text : Option String) : ℕ := text.elim 0 String.utf8ByteSize

/-- So much for each row, and for the texts that it holds. The spare room of the vectors, which
deepsize counts as well, is left out. -/
def wordStoSize (p : StoData) : ℕ :=
  72 + (p.stackNodes.map fun _ ↦ 48).sum +
    (p.stackNodeDatas.map fun d ↦ 64 + d.symbol.utf8ByteSize + heapOf d.file).sum +
    (p.profiledBinaries.map fun x ↦
      128 + x.event.utf8ByteSize + heapOf x.buildId + x.basename.utf8ByteSize).sum

def wordSizes : RowSizes wordStoSize where
  base := 72
  node _ := 48
  data d := 64 + d.symbol.utf8ByteSize + heapOf d.file
  executable x := 128 + x.event.utf8ByteSize + heapOf x.buildId + x.basename.utf8ByteSize
  base_pos := by decide
  node_pos _ := by decide
  data_pos _ := by omega
  executable_pos _ := by omega
  node_counter _ _ := rfl
  executable_counters _ _ _ _ _ _ := rfl
  stoSize_eq _ := rfl

def sizedExternals : Externals := { demoExternals with stoSize := wordStoSize }

theorem processed_size_within_stored_once :
    let db := (reached lenientPostgres sizedExternals [demoUpload] [0, 0, 0]).store
    (∀ r ∈ db.executable.rows, r.processedDataSize ≤ wordStoSize db.contents) ↔
      [demoUpload].length ≤ 1 ∧ ∀ u ∈ [demoUpload], u.WithinLimit sizedExternals :=
  processed_size_within_stored_iff (e := 9544298) (wordSizes : RowSizes sizedExternals.stoSize)
    (by decide +kernel) (by decide +kernel)

/-- The second batch adds no row, and its whole size. -/
theorem processed_size_exceeds_stored :
    let s := reached lenientPostgres sizedExternals [demoUpload, demoUpload] [0, 0, 0, 1, 1, 1]
    Acknowledged lenientPostgres sizedExternals s ∧
      ∃ r ∈ s.store.executable.rows, wordStoSize s.store.contents < r.processedDataSize := by
  decide +kernel

end Sto
