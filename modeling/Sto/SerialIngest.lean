import Sto.ReadSafety
import Sto.Regular
import Sto.CountNesting

namespace Sto

open Library

variable {env : Externals} {pg : Postgres} {us : List Upload} {u : Upload} {db : Db} {e : Int64}

/-- The row limit costs a batch nothing when it comes after the batches `pre`: it has no
node too many, and the frames that it has too many are stored already. -/
structure Upload.KeptAfter (env : Externals) (pre : List Upload) (u : Upload) : Prop where
  nodes : (u.payload env).stackNodes.length ≤ bindLimit / 4
  datas : ∀ d ∈ (u.payload env).stackNodeDatas.drop (bindLimit / 4),
    ∃ v ∈ pre, d.id ∈ (v.request env).datas.map StackNodeData.id

def LosesNothing (env : Externals) (us : List Upload) (e : Int64) : Prop :=
  ∀ pre u post, us = pre ++ u :: post → u.executableId env = e → u.KeptAfter env pre

theorem losesNothing_concat : LosesNothing env (us ++ [u]) e ↔
    LosesNothing env us e ∧ (u.executableId env = e → u.KeptAfter env us) := by
  constructor
  · intro h
    refine ⟨fun pre v post hsplit hexe ↦ h pre v (post ++ [u]) (by simp [hsplit]) hexe, ?_⟩
    exact h us u [] rfl
  · intro hx pre v post hsplit hexe
    obtain ⟨h, hu⟩ := hx
    cases post using List.reverseRecOn with
    | nil =>
      obtain ⟨rfl, hv⟩ := List.append_inj' hsplit rfl
      obtain rfl := List.singleton_inj.mp hv
      exact hu hexe
    | append_singleton post w =>
      rw [← List.cons_append, ← List.append_assoc] at hsplit
      exact h pre v post (List.append_inj' hsplit rfl).1 hexe

theorem losesNothing_of_withinLimit (hl : ∀ u ∈ us, u.WithinLimit env) (e : Int64) :
    LosesNothing env us e := by
  rintro pre u post rfl _
  obtain ⟨hnodes, hdatas⟩ := hl u (by simp)
  refine ⟨hnodes, fun d hd ↦ ?_⟩
  rw [List.drop_of_length_le hdatas] at hd
  cases hd

/-- The state that batches leave that are ingested one after the other. -/
abbrev stored (pg : Postgres) (env : Externals) (us : List Upload) : Db :=
  serialAll (program pg env) us Db.empty

theorem stored_concat (pg : Postgres) (env : Externals) (us : List Upload) (u : Upload) :
    stored pg env (us ++ [u]) = (dataIngest pg (u.request env) (stored pg env us)).1 :=
  serialAll_concat _ us u Db.empty

theorem stored_regular (pg : Postgres) (env : Externals) (us : List Upload) :
    (stored pg env us).Regular env := by
  obtain ⟨sched, hstore, _⟩ := System.exists_serial_run (program pg env) us Db.empty
  rw [stored, ← hstore]
  exact regular_run pg env us sched

theorem reached_foreignKeys (pg : Postgres) (env : Externals) (us : List Upload)
    (sched : List ℕ) : (reached pg env us sched).store.ForeignKeys :=
  (System.run_induction (P := fun s : System Upload Db SqlError ↦ s.store.ForeignKeys)
    (fun n hn ↦ by cases hn)
    (fun _ _ _ _ _ h _ _ _ htx hst ↦ foreignKeys_transaction (List.mem_of_getElem? htx) h hst)
    (fun _ _ _ _ _ h _ _ _ _ _ ↦ h) sched).1

theorem stored_foreignKeys (pg : Postgres) (env : Externals) (us : List Upload) :
    (stored pg env us).ForeignKeys := by
  obtain ⟨sched, hstore, _⟩ := System.exists_serial_run (program pg env) us Db.empty
  rw [stored, ← hstore]
  exact reached_foreignKeys pg env us sched

theorem dataIngest_of_not_resolves (hres : ¬ u.Resolves env) :
    (dataIngest pg (u.request env) db).1 = db := by
  obtain ⟨e, _, hd⟩ | ⟨db₁, h₁, _⟩ := dataIngest_cases pg (u.request env) db
  · rw [hd]
  · obtain ⟨t, ht, _⟩ := except_map_ok.mp h₁
    exact absurd (Upload.request_datas_eq_nil.mpr hres) (insertOrSkip_ok.mp ht).1.1

/-- What the tables hold of the batches that were ingested one after the other. -/
structure Ingested (env : Externals) (us : List Upload) (db : Db) : Prop where
  has_data : ∀ k, db.stackNodeData.Has k ↔
    ∃ u ∈ us, k ∈ (u.request env).datas.map StackNodeData.id
  data_rows : ∀ d ∈ db.stackNodeData.rows, ∃ u ∈ us, d ∈ u.frameRows env
  has_executable : ∀ k, db.executable.Has k ↔ ∃ u ∈ us, u.Resolves env ∧ u.executableId env = k
  executable_rows : ∀ r ∈ db.executable.rows,
    ∃ u ∈ us, u.executableId env = r.id ∧ u.args.binary = r.basename
  node_rows : ∀ n ∈ db.stackNode.rows, ∃ o ∈ us.flatMap (Upload.occurrences env), o.id = n.id ∧
    (o.parentId, o.stackNodeDataId, o.executableId) =
      (n.parentId, n.stackNodeDataId, n.executableId)
  nodes_le : ∀ k, db.stackNode.weight StackNode.sampleCount k ≤ nodeTotal env us k
  executables_le : ∀ c ∈ counters, ∀ k, db.executable.weight c k ≤ executableTotal env c us k

theorem Ingested.start : Ingested env [] Db.empty where
  has_data k := by simp [Db.empty, Table.empty, Table.Has]
  data_rows d hd := by cases hd
  has_executable k := by simp [Db.empty, Table.empty, Table.Has]
  executable_rows r hr := by cases hr
  node_rows n hn := by cases hn
  nodes_le k := le_rfl
  executables_le c _ k := le_rfl

theorem nodeTotal_concat (k : Int64) : nodeTotal env (us ++ [u]) k = nodeTotal env us k +
    carried StackNode.id StackNode.sampleCount (u.payload env).stackNodes k := by
  simp [nodeTotal]

theorem executableTotal_concat (c : Executable → ℤ) (k : Int64) :
    executableTotal env c (us ++ [u]) k = executableTotal env c us k +
      carried Executable.id c (u.payload env).profiledBinaries k := by
  simp [executableTotal]

theorem SumsFit.of_concat (h : SumsFit env (us ++ [u])) : SumsFit env us where
  nodes k := by
    have hsum := h.nodes k
    have hcarried := @carried_nodes_nonneg env u k
    rw [nodeTotal_concat] at hsum
    omega
  executables c hc k := by
    have hsum := h.executables c hc k
    have hcarried := @carried_executables_nonneg env _ (counter_of_mem hc) u k
    rw [executableTotal_concat] at hsum
    omega

theorem Ingested.fits (h : Ingested env us db) (hsum : SumsFit env (us ++ [u])) :
    db.Fits env [u] where
  nodes k := by
    have hle := h.nodes_le k
    have hlt := hsum.nodes k
    rw [nodeTotal_concat] at hlt
    simp only [nodeTotal, List.map_singleton, List.sum_singleton]
    omega
  executables c hc k := by
    have hle := h.executables_le c hc k
    have hlt := hsum.executables c hc k
    rw [executableTotal_concat] at hlt
    simp only [executableTotal, List.map_singleton, List.sum_singleton]
    omega

theorem Ingested.skip (h : Ingested env us db) (hres : ¬ u.Resolves env) :
    Ingested env (us ++ [u]) db where
  has_data k := by
    rw [h.has_data]
    simp [Upload.request_datas_eq_nil.mpr hres, or_and_right, exists_or]
  data_rows d hd := by
    obtain ⟨v, hv, hd⟩ := h.data_rows d hd
    exact ⟨v, List.mem_append_left _ hv, hd⟩
  has_executable k := by
    rw [h.has_executable]
    simp [hres, or_and_right, exists_or]
  executable_rows r hr := by
    obtain ⟨v, hv, hrow⟩ := h.executable_rows r hr
    exact ⟨v, List.mem_append_left _ hv, hrow⟩
  node_rows n hn := by
    obtain ⟨o, ho, hrow⟩ := h.node_rows n hn
    rw [List.flatMap_append]
    exact ⟨o, List.mem_append_left _ ho, hrow⟩
  nodes_le k := by
    rw [nodeTotal_concat]
    exact (h.nodes_le k).trans (Int.le_add_of_nonneg_right (carried_nodes_nonneg u k))
  executables_le c hc k := by
    rw [executableTotal_concat]
    exact (h.executables_le c hc k).trans
      (Int.le_add_of_nonneg_right (carried_executables_nonneg (counter_of_mem hc) u k))

theorem Ingested.add (h : Ingested env us db) (hres : u.Resolves env) {t : Table StackNode.id}
    (ht : t = db.stackNode ∨ t = db.stackNode.upsertAll addStackNode (u.request env).nodes) :
    Ingested env (us ++ [u]) { (u.request env).applyTo db with stackNode := t } where
  has_data k := by
    simp only [Request.applyTo, Table.has_upsertAll, h.has_data, List.mem_append, List.mem_map,
      List.mem_singleton, or_and_right, exists_or, exists_eq_left]
  data_rows d hd := by
    obtain hd | hd := mem_upsertAll_first hd
    · obtain ⟨v, hv, hd⟩ := h.data_rows d hd
      exact ⟨v, List.mem_append_left _ hv, hd⟩
    · exact ⟨u, by simp, payload_data_source (Upload.mem_request_datas hd)⟩
  has_executable k := by
    have hid : (stamp (u.request env) (u.executableRow env)).id = u.executableId env := rfl
    simp only [Request.applyTo, Table.has_upsertAll, h.has_executable,
      Upload.request_executables hres, List.mem_append, List.mem_singleton, or_and_right,
      exists_or, exists_eq_left, hid, hres, true_and]
  executable_rows r hr := by
    obtain ⟨y, hy, hid, hname⟩ :=
      Table.exists_source (f := Executable.basename) (fun _ _ ↦ rfl) hr
    rcases hy with hy | hy
    · obtain ⟨v, hv, hvid, hvname⟩ := h.executable_rows y hy
      exact ⟨v, List.mem_append_left _ hv, hvid.trans hid, hvname.trans hname⟩
    · rw [Upload.request_executables hres, List.mem_singleton] at hy
      subst hy
      exact ⟨u, by simp, hid, hname⟩
  node_rows n hn := by
    rw [List.flatMap_append, List.flatMap_singleton]
    rcases ht with rfl | rfl
    · obtain ⟨o, ho, hrow⟩ := h.node_rows n hn
      exact ⟨o, List.mem_append_left _ ho, hrow⟩
    · obtain ⟨y, hy, hid, hrefs⟩ := Table.exists_source
        (f := fun n : StackNode ↦ (n.parentId, n.stackNodeDataId, n.executableId)) (fun _ _ ↦ rfl) hn
      rcases hy with hy | hy
      · obtain ⟨o, ho, hoid, horefs⟩ := h.node_rows y hy
        exact ⟨o, List.mem_append_left _ ho, hoid.trans hid, horefs.trans hrefs⟩
      · obtain ⟨o, ho, hoid, hp, hd, he⟩ := Upload.payload_node_source (Upload.mem_request_nodes hy)
        refine ⟨o, List.mem_append_right _ ho, hoid.trans hid, ?_⟩
        rw [hp, hd, he]
        exact hrefs
  nodes_le k := by
    have hle := h.nodes_le k
    obtain ⟨hnonneg, hrequest⟩ := @carried_nodes_request env u k
    rw [nodeTotal_concat]
    rcases ht with rfl | rfl
    · dsimp only
      omega
    · rw [upsert_nodes_weight]
      omega
  executables_le c hc k := by
    rw [executableTotal_concat, Request.applyTo, upsert_executables_weight (counter_of_mem hc)]
    exact Int.add_le_add_right (h.executables_le c hc k) _

theorem stored_ingested (ha : ∀ u ∈ us, u.Resolves env → u.Acceptable pg env)
    (hsum : SumsFit env us) : Ingested env us (stored pg env us) := by
  induction us using List.reverseRecOn with
  | nil => exact .start
  | append_singleton us u ih =>
    have h := ih (fun v hv ↦ ha v (List.mem_append_left _ hv)) hsum.of_concat
    rw [stored_concat]
    by_cases hres : u.Resolves env
    · have hingest := (stored_regular pg env us).ingest (h.fits hsum) hres (ha u (by simp) hres)
      by_cases href : ∀ n ∈ (u.request env).nodes, ¬ (stored pg env us).stackNode.Has n.id →
          ((u.request env).applyTo (stored pg env us)).resolves n = true
      · rw [hingest.1 href]
        exact h.add hres (.inr rfl)
      · rw [hingest.2 href]
        exact h.add hres (.inl rfl)
    · rw [dataIngest_of_not_resolves hres]
      exact h.skip hres

theorem exists_node_of_data (hids : NodeIdsDistinct env us) (hu : u ∈ us) {d : StackNodeData}
    (hd : d ∈ (u.payload env).stackNodeDatas) :
    ∃ n ∈ (u.payload env).stackNodes, n.stackNodeDataId = d.id := by
  have hrow := payload_data_source hd
  rw [Upload.frameRows_eq] at hrow
  obtain ⟨f, hf, rfl⟩ := List.mem_map.mp hrow
  obtain ⟨path, hpath, hmem⟩ := List.mem_flatten.mp hf
  obtain ⟨p, s, rfl⟩ := List.append_of_mem hmem
  let o := pathNode env (u.executableId env) (pathId env (u.executableId env) none p) f
  have ho : o ∈ u.occurrences env := by
    rw [Upload.occurrences_eq]
    exact List.mem_flatMap.mpr ⟨_, hpath, mem_pathNodes.mpr ⟨p, f, s, rfl, rfl⟩⟩
  obtain ⟨n, hn, hid⟩ := List.mem_map.mp (Upload.mem_payload_node_ids.mpr ⟨o, ho, rfl⟩)
  obtain ⟨o', ho', hoid, _, hdata, _⟩ := Upload.payload_node_source hn
  have hrefs := hids o' (List.mem_flatMap.mpr ⟨u, hu, ho'⟩) o (List.mem_flatMap.mpr ⟨u, hu, ho⟩)
    (hoid.trans hid)
  exact ⟨n, hn, hdata.symm.trans hrefs.2.1⟩

section Kept

variable (h : Ingested env us db) (hreg : db.Regular env) (hfk : db.ForeignKeys)
  (hfit : db.Fits env [u]) (ha : u.Resolves env → u.Acceptable pg env)
  (hids : NodeIdsDistinct env (us ++ [u]))

include h hreg hfit ha

theorem Ingested.counts_of_kept (hkept : u.KeptAfter env us) {n : StackNode}
    (hn : n ∈ (u.payload env).stackNodes) :
    (dataIngest pg (u.request env) db).1.stackNode.weight StackNode.sampleCount n.id =
      db.stackNode.weight StackNode.sampleCount n.id + n.sampleCount := by
  have hres : u.Resolves env := by
    by_contra hres
    rw [Upload.payload_nodes_eq_nil.mpr hres] at hn
    cases hn
  have href := (hreg.ingest hfit hres (ha hres)).1 fun m hm _ ↦
    Upload.references_hold hkept.nodes hres (fun d hd ↦ ?_) hm
  · rw [href]
    change ((u.request env).applyTo db).stackNode.weight _ _ = _
    rw [Request.applyTo, upsert_nodes_weight, Upload.request_nodes hkept.nodes,
      carried_of_mem u.nodes_nodup hn]
  · obtain ⟨x, hx, hid⟩ := List.mem_map.mp (Upload.mem_payload_data_ids.mpr ⟨d, hd, rfl⟩)
    apply Table.has_upsertAll.mpr
    rcases mem_take_or_drop (bindLimit / 4) hx with htake | hdrop
    · exact .inr ⟨x, htake, hid⟩
    · exact .inl ((h.has_data _).mpr (hid ▸ hkept.datas x hdrop))

include hfk hids

theorem Ingested.kept_of_counts (hcounts : ∀ n ∈ (u.payload env).stackNodes,
    (dataIngest pg (u.request env) db).1.stackNode.weight StackNode.sampleCount n.id =
      db.stackNode.weight StackNode.sampleCount n.id + n.sampleCount) : u.KeptAfter env us := by
  by_cases hres : u.Resolves env
  swap
  · refine ⟨?_, fun d hd ↦ ?_⟩
    · rw [Upload.payload_nodes_eq_nil.mpr hres]
      exact Nat.zero_le _
    · rw [Upload.payload_datas_eq_nil.mpr hres] at hd
      cases hd
  have hingest := hreg.ingest hfit hres (ha hres)
  have href : ∀ n ∈ (u.request env).nodes, ¬ db.stackNode.Has n.id →
      ((u.request env).applyTo db).resolves n = true := by
    by_contra href
    obtain ⟨n, hn⟩ := List.exists_mem_of_ne_nil _
      (mt Upload.payload_nodes_eq_nil.mp (not_not.mpr hres))
    have hcount := hcounts n hn
    have hpos := payload_count_pos hn
    rw [hingest.2 href] at hcount
    dsimp only at hcount
    omega
  rw [hingest.1 href] at hcounts
  have hnodes : (u.payload env).stackNodes.length ≤ bindLimit / 4 := by
    by_contra hlen
    have hdrop : (u.payload env).stackNodes.drop (bindLimit / 4) ≠ [] := by
      rw [Ne, List.drop_eq_nil_iff]
      exact hlen
    obtain ⟨n, hn⟩ := List.exists_mem_of_ne_nil _ hdrop
    have hcount := hcounts n (List.mem_of_mem_drop hn)
    have hpos := payload_count_pos (List.mem_of_mem_drop hn)
    have hsame := ((Table.weight_upsertAll_take addStackNode StackNode.sampleCount (fun _ _ ↦ rfl)
      db.stackNode u.nodes_nodup (bindLimit / 4) n).2 hn).2
    have hunchanged := hcount.symm.trans hsame
    omega
  refine ⟨hnodes, fun d hd ↦ ?_⟩
  obtain ⟨n, hn, hdata⟩ := exists_node_of_data hids (by simp) (List.mem_of_mem_drop hd)
  have hhas : ((u.request env).applyTo db).stackNodeData.Has d.id := by
    by_cases hold : db.stackNode.Has n.id
    · obtain ⟨m, hm, hmid⟩ := Table.has_iff.mp hold
      obtain ⟨o, ho, hoid, hrefs⟩ := h.node_rows m hm
      obtain ⟨o', ho', hoid', _, hdata', _⟩ := Upload.payload_node_source hn
      have hsame := hids o (List.flatMap_append ▸ List.mem_append_left _ ho) o'
        (List.mem_flatMap.mpr ⟨u, by simp, ho'⟩) (hoid.trans (hmid.trans hoid'.symm))
      simp only [Prod.mk.injEq] at hrefs
      have hmdata : m.stackNodeDataId = d.id := by
        rw [← hrefs.2.1, hsame.2.1, hdata', hdata]
      exact Table.has_upsertAll_of_has (hmdata ▸ (Db.resolves_iff.mp (hfk m hm)).2.1)
    · exact hdata ▸ (Db.resolves_iff.mp (href n (Upload.request_nodes hnodes ▸ hn) hold)).2.1
  obtain hhas | ⟨x, hx, hid⟩ := Table.has_upsertAll.mp hhas
  · exact (h.has_data _).mp hhas
  · exact absurd hid (Table.not_mem_take_of_mem_drop u.datas_nodup hd x hx)

end Kept

theorem nodeTotal_eq_count (us : List Upload) (k : Int64) : nodeTotal env us k =
    ((us.flatMap (Upload.occurrences env)).countP fun n ↦ decide (n.id = k) : ℤ) := by
  rw [← sum_counts, sum_flatMap, nodeTotal]
  simp only [carried_nodes]

theorem dataIngest_weight (hreg : db.Regular env) (hfit : db.Fits env [u])
    (ha : u.Resolves env → u.Acceptable pg env) (k : Int64) :
    let before := db.stackNode.weight StackNode.sampleCount k
    let after := (dataIngest pg (u.request env) db).1.stackNode.weight StackNode.sampleCount k
    before ≤ after ∧ after ≤ before +
      carried StackNode.id StackNode.sampleCount (u.payload env).stackNodes k := by
  have hnonneg := @carried_nodes_nonneg env u k
  have hrequest := @carried_nodes_request env u k
  by_cases hres : u.Resolves env
  · have hingest := hreg.ingest hfit hres (ha hres)
    by_cases href : ∀ n ∈ (u.request env).nodes, ¬ db.stackNode.Has n.id →
        ((u.request env).applyTo db).resolves n = true
    · rw [hingest.1 href]
      dsimp only
      rw [Request.applyTo, upsert_nodes_weight]
      omega
    · rw [hingest.2 href]
      dsimp only
      omega
  · rw [dataIngest_of_not_resolves hres]
    dsimp only
    omega

theorem NodeIdsDistinct.of_concat (h : NodeIdsDistinct env (us ++ [u])) :
    NodeIdsDistinct env us := by
  rw [NodeIdsDistinct, List.flatMap_append] at h
  exact fun a ha b hb ↦ h a (List.mem_append_left _ ha) b (List.mem_append_left _ hb)

/-- The count of every node of the executable is that of all its samples. -/
def Counted (env : Externals) (us : List Upload) (e : Int64) (db : Db) : Prop :=
  ∀ n ∈ us.flatMap (Upload.occurrences env), n.executableId = e →
    db.stackNode.weight StackNode.sampleCount n.id = nodeTotal env us n.id

theorem Ingested.weight_of_counted (h : Ingested env us db) (hreg : db.Regular env)
    (hids : NodeIdsDistinct env (us ++ [u])) (hcounted : Counted env us e db) {n : StackNode}
    (hn : n ∈ (us ++ [u]).flatMap (Upload.occurrences env)) (hexe : n.executableId = e) :
    db.stackNode.weight StackNode.sampleCount n.id = nodeTotal env us n.id := by
  by_cases hocc : ∃ o ∈ us.flatMap (Upload.occurrences env), o.id = n.id
  · obtain ⟨o, ho, hid⟩ := hocc
    have hrefs := hids o (List.flatMap_append ▸ List.mem_append_left _ ho) n hn hid
    exact hid ▸ hcounted o ho (hrefs.2.2.trans hexe)
  · have hzero : nodeTotal env us n.id = 0 := by
      rw [nodeTotal_eq_count, List.countP_eq_zero.mpr]
      · rfl
      · exact fun o ho hid ↦ hocc ⟨o, ho, of_decide_eq_true hid⟩
    have hnonneg := hreg.nodes n.id
    have hle := h.nodes_le n.id
    omega

/-- The counts of an executable are right exactly when the row limit has cost nothing. -/
theorem counted_iff_losesNothing (pg : Postgres)
    (ha : ∀ u ∈ us, u.Resolves env → u.Acceptable pg env)
    (hsum : SumsFit env us) (hids : NodeIdsDistinct env us) (e : Int64) :
    Counted env us e (stored pg env us) ↔ LosesNothing env us e := by
  induction us using List.reverseRecOn with
  | nil =>
    refine ⟨fun _ pre u post hsplit ↦ ?_, fun _ n hn ↦ by cases hn⟩
    simp at hsplit
  | append_singleton us u ih =>
    have ha' := fun v hv ↦ ha v (List.mem_append_left _ hv)
    have hau := ha u (by simp)
    have h := stored_ingested ha' hsum.of_concat
    have hreg := stored_regular pg env us
    have hfit := h.fits hsum
    have hweight := dataIngest_weight hreg hfit hau
    rw [losesNothing_concat, ← ih ha' hsum.of_concat hids.of_concat]
    constructor
    · intro hcounted
      simp only [Counted, stored_concat, nodeTotal_concat, List.flatMap_append,
        List.flatMap_singleton, List.mem_append] at hcounted
      refine ⟨fun n hn hexe ↦ ?_, fun hexe ↦ ?_⟩
      · have hnew := hcounted n (.inl hn) hexe
        have hadded := (hweight n.id).2
        have hold := h.nodes_le n.id
        omega
      · apply h.kept_of_counts hreg (stored_foreignKeys pg env us) hfit hau hids
        intro n hn
        obtain ⟨o, ho, hid, _⟩ := Upload.payload_node_source hn
        have hnew := hcounted o (.inr ho) ((Upload.occurrence_refs ho).2.2.1.trans hexe)
        have hadded := (hweight n.id).2
        have hold := h.nodes_le n.id
        rw [hid, carried_of_mem u.nodes_nodup hn] at hnew
        rw [carried_of_mem u.nodes_nodup hn] at hadded
        omega
    · intro hx n hn hexe
      obtain ⟨hcounted, hkept⟩ := hx
      rw [stored_concat, nodeTotal_concat, ← h.weight_of_counted hreg hids hcounted hn hexe]
      by_cases hpayload : n.id ∈ (u.payload env).stackNodes.map StackNode.id
      · obtain ⟨m, hm, hmid⟩ := List.mem_map.mp hpayload
        obtain ⟨o, ho, hid, _⟩ := Upload.payload_node_source hm
        have hrefs := hids o (List.mem_flatMap.mpr ⟨u, by simp, ho⟩) n hn (hid.trans hmid)
        have hexe' := (Upload.occurrence_refs ho).2.2.1.symm.trans (hrefs.2.2.trans hexe)
        rw [← hmid, carried_of_mem u.nodes_nodup hm]
        exact h.counts_of_kept hreg hfit hau (hkept hexe') hm
      · have hzero : carried StackNode.id StackNode.sampleCount (u.payload env).stackNodes n.id =
            0 := by
          rw [carried, List.filter_eq_nil_iff.mpr fun m hm hid ↦ hpayload
            (List.mem_map.mpr ⟨m, hm, of_decide_eq_true hid⟩)]
          rfl
        have hadded := hweight n.id
        rw [hzero] at hadded ⊢
        exact le_antisymm hadded.2 (by simpa using hadded.1)

end Sto
