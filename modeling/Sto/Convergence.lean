import Sto.Snapshot
import Sto.ConcurrentIngest

namespace Sto

open Library

variable {env : Externals} {pg : Postgres} {us us' : List Upload} {s s' : System Upload Db SqlError}

def Executable.totals (r : Executable) : Int64 × ℤ × ℤ × ℤ :=
  (r.id, r.sampleCount, r.rawDataSize, r.processedDataSize)

def Executable.untimed (r : Executable) : Executable :=
  { r with updatedAt := none, createdAt := none }

/-- The same nodes and frames, and the same of every executable that `view` shows of it. -/
structure Db.Agrees {β : Type} (view : Executable → β) (a b : Db) : Prop where
  nodes : a.stackNode.rows.Perm b.stackNode.rows
  datas : a.stackNodeData.rows.Perm b.stackNodeData.rows
  executables : (a.executable.rows.map view).Perm (b.executable.rows.map view)

/-- Uploads of one executable describe it alike. Where they do not, its row keeps the columns
of whichever committed first. -/
def NamedAlike (env : Externals) (us : List Upload) : Prop :=
  ∀ u ∈ us, ∀ v ∈ us, u.executableId env = v.executableId env →
    executableOf env u.args = executableOf env v.args

instance (us : List Upload) : Decidable (NamedAlike env us) :=
  inferInstanceAs (Decidable (∀ u ∈ us, ∀ v ∈ us, u.executableId env = v.executableId env →
    executableOf env u.args = executableOf env v.args))

theorem NamedAlike.mono (h : NamedAlike env us) (hsub : ∀ u ∈ us', u ∈ us) : NamedAlike env us' :=
  fun u hu v hv ↦ h u (hsub u hu) v (hsub v hv)

theorem countedRow_perm (h : us.Perm us') (o : StackNode) :
    countedRow env us o = countedRow env us' o := by
  rw [countedRow, countedRow, (h.flatMap_right _).countP_eq]

theorem Replay.mem_data_rows (h : Replay env s) (hframes : FramesDistinct env (s.past 1))
    {d : StackNodeData} : d ∈ s.store.stackNodeData.rows ↔
      ∃ f ∈ (s.past 1).flatMap fun u ↦ (u.paths env).flatten, d = dataRow env f := by
  have hsource : ∀ d ∈ s.store.stackNodeData.rows,
      ∃ f ∈ (s.past 1).flatMap fun u ↦ (u.paths env).flatten, d = dataRow env f := by
    intro d hd
    obtain ⟨vs, hvs, hsame⟩ := h.datas
    obtain ⟨⟨⟩⟩ | hd := mem_upsertAll_first (hsame.perm.mem_iff.mp hd)
    obtain ⟨u, hu, hd⟩ := List.mem_flatMap.mp hd
    rw [Upload.frameRows_eq] at hd
    obtain ⟨f, hf, rfl⟩ := List.mem_map.mp hd
    exact ⟨f, List.mem_flatMap.mpr ⟨u, hvs.mem_iff.mp hu, hf⟩, rfl⟩
  refine ⟨hsource d, ?_⟩
  intro hx
  obtain ⟨f, hf, rfl⟩ := hx
  obtain ⟨u, hu, hfu⟩ := List.mem_flatMap.mp hf
  have hhas : s.store.stackNodeData.Has (dataRow env f).id := by
    refine (h.has_data_iff _).mpr ⟨u, hu, dataRow env f, ?_, rfl⟩
    rw [Upload.frameRows_eq]
    exact List.mem_map_of_mem hfu
  obtain ⟨r, hr, hid⟩ := Table.has_iff.mp hhas
  obtain ⟨g, hg, rfl⟩ := hsource r hr
  rwa [← hframes g hg f hf hid]

theorem executableTotal_perm (h : us.Perm us') (c : Executable → ℤ) (k : Int64) :
    executableTotal env c us k = executableTotal env c us' k := (h.map _).sum_eq

theorem Replay.mem_totals (h : Replay env s) {x : Int64 × ℤ × ℤ × ℤ} :
    x ∈ s.store.executable.rows.map Executable.totals ↔
      (∃ u ∈ s.past 2, u.executableId env = x.1) ∧
        x.2 = (executableTotal env Executable.sampleCount (s.past 2) x.1,
          executableTotal env Executable.rawDataSize (s.past 2) x.1,
          executableTotal env Executable.processedDataSize (s.past 2) x.1) := by
  have hrow : ∀ r ∈ s.store.executable.rows, r.totals.2 =
      (executableTotal env Executable.sampleCount (s.past 2) r.id,
        executableTotal env Executable.rawDataSize (s.past 2) r.id,
        executableTotal env Executable.processedDataSize (s.past 2) r.id) := by
    intro r hr
    rw [← h.executable_weight .sampleCount, ← h.executable_weight .rawDataSize,
      ← h.executable_weight .processedDataSize, Table.weight_of_mem _ hr,
      Table.weight_of_mem _ hr, Table.weight_of_mem _ hr]
    rfl
  rw [List.mem_map, ← h.has_executable]
  constructor
  · intro hx
    obtain ⟨r, hr, rfl⟩ := hx
    exact ⟨List.mem_map_of_mem hr, hrow r hr⟩
  · intro hx
    obtain ⟨hhas, htotals⟩ := hx
    obtain ⟨r, hr, hid⟩ := Table.has_iff.mp hhas
    refine ⟨r, hr, Prod.ext hid ?_⟩
    rw [hrow r hr, htotals, hid]

def totalRow (env : Externals) (us : List Upload) (u : Upload) : Executable :=
  { executableOf env u.args with
    sampleCount := executableTotal env Executable.sampleCount us (u.executableId env)
    rawDataSize := executableTotal env Executable.rawDataSize us (u.executableId env)
    processedDataSize := executableTotal env Executable.processedDataSize us (u.executableId env) }

theorem totalRow_perm (h : us.Perm us') (u : Upload) : totalRow env us u = totalRow env us' u := by
  rw [totalRow, totalRow, executableTotal_perm h, executableTotal_perm h, executableTotal_perm h]

theorem Provenance.mem_untimed (h : Provenance env s) (hnamed : NamedAlike env (s.past 2))
    {x : Executable} : x ∈ s.store.executable.rows.map Executable.untimed ↔
      ∃ u ∈ s.past 2, x = totalRow env (s.past 2) u := by
  have hrow : ∀ r ∈ s.store.executable.rows, ∀ u ∈ s.past 2, u.executableId env = r.id →
      r.untimed = totalRow env (s.past 2) u := by
    intro r hr u hu hid
    obtain ⟨v, hv, hvid, hbinary, hversion, hevent⟩ := h.executable_row hr
    have hcounter : ∀ c, Counter c → c r = executableTotal env c (s.past 2) r.id := by
      intro c hc
      rw [← h.executable_weight hc, Table.weight_of_mem c hr]
    have hdescribed : { executableOf env v.args with
        sampleCount := r.sampleCount
        rawDataSize := r.rawDataSize
        processedDataSize := r.processedDataSize } = r.untimed := by
      change Executable.mk (v.executableId env) v.args.eventType.toString v.args.version
        v.args.binary none none _ _ _ = Executable.mk _ _ _ _ none none _ _ _
      rw [hvid, hbinary, hversion, hevent]
    rw [← hdescribed, totalRow, hid, hcounter _ .sampleCount, hcounter _ .rawDataSize,
      hcounter _ .processedDataSize, hnamed v hv u hu (hvid.trans hid.symm)]
  rw [List.mem_map]
  constructor
  · intro hx
    obtain ⟨r, hr, rfl⟩ := hx
    obtain ⟨u, hu, hid, _⟩ := h.executable_row hr
    exact ⟨u, hu, hrow r hr u hu hid⟩
  · intro hx
    obtain ⟨u, hu, rfl⟩ := hx
    obtain ⟨r, hr, hid⟩ := Table.has_iff.mp (h.has_executable hu)
    exact ⟨r, hr, hrow r hr u hu hid.symm⟩

theorem untimed_nodup (db : Db) : (db.executable.rows.map Executable.untimed).Nodup := by
  apply List.Nodup.of_map Executable.id
  rw [List.map_map]
  exact db.executable.nodup

theorem totals_nodup (db : Db) : (db.executable.rows.map Executable.totals).Nodup := by
  apply List.Nodup.of_map Prod.fst
  rw [List.map_map]
  exact db.executable.nodup

theorem Replay.agrees (h : Replay env s) (h' : Replay env s')
    (hframes : FramesDistinct env (s.past 1)) (hids : NodeIdsDistinct env (s.past 3))
    (hpast : ∀ k, 1 ≤ k → k ≤ 3 → (s.past k).Perm (s'.past k)) :
    s.store.Agrees Executable.totals s'.store := by
  have h₁ := hpast 1 (by omega) (by omega)
  have h₂ := hpast 2 (by omega) (by omega)
  have h₃ := hpast 3 (by omega) (by omega)
  have hframes' : FramesDistinct env (s'.past 1) := hframes.mono fun u hu ↦ h₁.mem_iff.mpr hu
  have hids' : NodeIdsDistinct env (s'.past 3) := hids.mono fun u hu ↦ h₃.mem_iff.mpr hu
  refine ⟨?_, ?_, ?_⟩
  · apply (List.perm_ext_iff_of_nodup (Table.nodup_rows _) (Table.nodup_rows _)).mpr
    intro n
    rw [h.mem_rows hids, h'.mem_rows hids']
    refine exists_congr fun o ↦ and_congr (h₃.flatMap_right _).mem_iff ?_
    rw [countedRow_perm h₃]
  · apply (List.perm_ext_iff_of_nodup (Table.nodup_rows _) (Table.nodup_rows _)).mpr
    intro d
    rw [h.mem_data_rows hframes, h'.mem_data_rows hframes']
    exact exists_congr fun f ↦ and_congr_left' (h₁.flatMap_right _).mem_iff
  · apply (List.perm_ext_iff_of_nodup (totals_nodup _) (totals_nodup _)).mpr
    intro x
    rw [h.mem_totals, h'.mem_totals, executableTotal_perm h₂, executableTotal_perm h₂,
      executableTotal_perm h₂]
    refine and_congr_left' (exists_congr fun u ↦ and_congr_left' h₂.mem_iff)

theorem Provenance.agrees (h : Provenance env s) (h' : Provenance env s')
    (hnamed : NamedAlike env (s.past 2)) (hpast : (s.past 2).Perm (s'.past 2))
    (hagrees : s.store.Agrees Executable.totals s'.store) :
    s.store.Agrees Executable.untimed s'.store := by
  have hnamed' : NamedAlike env (s'.past 2) := hnamed.mono fun u hu ↦ hpast.mem_iff.mpr hu
  refine ⟨hagrees.nodes, hagrees.datas, ?_⟩
  apply (List.perm_ext_iff_of_nodup (untimed_nodup _) (untimed_nodup _)).mpr
  intro x
  rw [h.mem_untimed hnamed, h'.mem_untimed hnamed']
  exact exists_congr fun u ↦ and_congr hpast.mem_iff (by rw [totalRow_perm hpast])

theorem agrees_of_past (pg : Postgres) (hl : ∀ u ∈ us, u.WithinLimit env)
    (hl' : ∀ u ∈ us', u.WithinLimit env) (hframes : FramesDistinct env us)
    (hids : NodeIdsDistinct env us) (sched sched' : List ℕ)
    (hpast : ∀ k, 1 ≤ k → k ≤ 3 →
      ((reached pg env us sched).past k).Perm ((reached pg env us' sched').past k)) :
    let db := (reached pg env us sched).store
    let db' := (reached pg env us' sched').store
    db.Agrees Executable.totals db' ∧ (NamedAlike env us → db.Agrees Executable.untimed db') := by
  intro db db'
  have hsub : ∀ {k}, ∀ u ∈ (reached pg env us sched).past k, u ∈ us :=
    fun _ hu ↦ past_subset pg env us sched hu
  have hagrees : db.Agrees Executable.totals db' :=
    (replay_run pg hl sched).agrees (replay_run pg hl' sched') (hframes.mono hsub) (hids.mono hsub)
      hpast
  refine ⟨hagrees, fun hnamed ↦ ?_⟩
  exact (provenance_run pg env us sched).agrees (provenance_run pg env us' sched')
    (hnamed.mono hsub) (hpast 2 (by omega) (by omega)) hagrees

theorem SumsFit.perm (h : SumsFit env us) (hperm : us.Perm us') : SumsFit env us' where
  nodes k := by
    rw [nodeTotal, ← (hperm.map _).sum_eq]
    exact h.nodes k
  executables c hc k := by
    rw [← executableTotal_perm hperm]
    exact h.executables c hc k

theorem finished_of_turns (pg : Postgres) (env : Externals) {sched : List ℕ}
    (hturns : ∀ i < us.length, 3 ≤ sched.count i) :
    ∀ j ∈ (reached pg env us sched).jobs, j.next (program pg env) = none := by
  apply System.finishes
  intro i j hj
  rw [System.start, List.getElem?_map] at hj
  obtain ⟨u, hu, rfl⟩ := Option.map_eq_some_iff.mp hj
  refine .inr ?_
  have hturn := hturns i (List.getElem?_eq_some_iff.mp hu).1
  change 3 ≤ 0 + sched.count i
  omega

/-- Three turns for each upload are enough for all of them to be stored, and neither the
order in which they come nor the one in which their transactions run makes a difference. -/
theorem fair_runs_converge (pg : Postgres) (hperm : us.Perm us')
    (hl : ∀ u ∈ us, u.WithinLimit env) (ha : ∀ u ∈ us, u.Resolves env → u.Acceptable pg env)
    (hsum : SumsFit env us) (hframes : FramesDistinct env us) (hids : NodeIdsDistinct env us)
    (sched sched' : List ℕ) (hturns : ∀ i < us.length, 3 ≤ sched.count i)
    (hturns' : ∀ i < us'.length, 3 ≤ sched'.count i) :
    let s := reached pg env us sched
    let s' := reached pg env us' sched'
    (∀ j ∈ s.jobs, j.next (program pg env) = none ∧ (j.request.Resolves env → j.error = none)) ∧
      s.past 3 = us.filter (fun u ↦ u.Resolves env) ∧
      s.store.Agrees Executable.totals s'.store ∧
      (NamedAlike env us → s.store.Agrees Executable.untimed s'.store) := by
  intro s s'
  have hl' : ∀ u ∈ us', u.WithinLimit env := fun u hu ↦ hl u (hperm.mem_iff.mpr hu)
  have ha' : ∀ u ∈ us', u.Resolves env → u.Acceptable pg env :=
    fun u hu ↦ ha u (hperm.mem_iff.mpr hu)
  have hfin := finished_of_turns pg env hturns
  have hfin' := finished_of_turns pg env hturns'
  have hpast : ∀ k, 1 ≤ k → k ≤ 3 → s.past k = us.filter fun u ↦ u.Resolves env :=
    fun k ↦ past_of_finished hl ha hsum sched hfin
  have hpast' : ∀ k, 1 ≤ k → k ≤ 3 → s'.past k = us'.filter fun u ↦ u.Resolves env :=
    fun k ↦ past_of_finished hl' ha' (hsum.perm hperm) sched' hfin'
  refine ⟨?_, hpast 3 (by omega) (by omega), ?_⟩
  · intro j hj
    exact ⟨hfin j hj, resolving_run hl ha hsum sched j hj⟩
  · apply agrees_of_past pg hl hl' hframes hids sched sched'
    intro k hk hk'
    change (s.past k).Perm (s'.past k)
    rw [hpast k hk hk', hpast' k hk hk']
    exact hperm.filter _

theorem fair_runs_converge_demo :
    let s := reached lenientPostgres demoExternals [demoUpload, demoUpload] [0, 1, 1, 0, 0, 1]
    let s' := reached lenientPostgres demoExternals [demoUpload, demoUpload] [1, 1, 1, 0, 0, 0]
    (∀ j ∈ s.jobs, j.next (program lenientPostgres demoExternals) = none ∧
      (j.request.Resolves demoExternals → j.error = none)) ∧
      s.past 3 = [demoUpload, demoUpload].filter (fun u ↦ u.Resolves demoExternals) ∧
      s.store.Agrees Executable.totals s'.store ∧ s.store.Agrees Executable.untimed s'.store := by
  intro s s'
  have hall : ∀ u ∈ [demoUpload, demoUpload], u = demoUpload := by simp
  obtain ⟨hends, hpast, htotals, huntimed⟩ := fair_runs_converge lenientPostgres
    (List.Perm.refl [demoUpload, demoUpload])
    (fun u hu ↦ hall u hu ▸ demoUpload_withinLimit)
    (fun u hu _ ↦ hall u hu ▸ demoUpload_acceptable) demoUploads_fit
    (by decide +kernel) (by decide +kernel) [0, 1, 1, 0, 0, 1] [1, 1, 1, 0, 0, 0]
    (by decide) (by decide)
  exact ⟨hends, hpast, htotals, huntimed (by decide +kernel)⟩

end Sto
