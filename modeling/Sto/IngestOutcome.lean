import Sto.Ingest

namespace Sto

open Library

variable {pg : Postgres} {r : Request} {db : Db}

/-- A payload that a database can take in: no list is empty or repeats an id, every
reference leads to a row of the payload or of the database, and no frame stands under two
ids. -/
structure StoData.FitsInto (p : StoData) (db : Db) : Prop where
  nodes_ne : p.stackNodes ≠ []
  datas_ne : p.stackNodeDatas ≠ []
  executables_ne : p.profiledBinaries ≠ []
  nodes_nodup : (p.stackNodes.map StackNode.id).Nodup
  datas_nodup : (p.stackNodeDatas.map StackNodeData.id).Nodup
  executables_nodup : (p.profiledBinaries.map Executable.id).Nodup
  parents : ∀ n ∈ p.stackNodes, ∀ q, n.parentId = some q →
    q ∈ p.stackNodes.map StackNode.id ∨ db.stackNode.Has q
  datas : ∀ n ∈ p.stackNodes,
    n.stackNodeDataId ∈ p.stackNodeDatas.map StackNodeData.id ∨
      db.stackNodeData.Has n.stackNodeDataId
  executables : ∀ n ∈ p.stackNodes,
    n.executableId ∈ p.profiledBinaries.map Executable.id ∨ db.executable.Has n.executableId
  frames : FramesUnderOneId (db.stackNodeData.rows ++ p.stackNodeDatas)

def StoresEverything (p : StoData) (before after : Db) : Prop :=
  (∀ d ∈ p.stackNodeDatas, after.stackNodeData.Has d.id) ∧
  (∀ e ∈ p.profiledBinaries, after.executable.Has e.id ∧
    after.executable.weight Executable.sampleCount e.id =
      before.executable.weight Executable.sampleCount e.id + e.sampleCount) ∧
  ∀ n ∈ p.stackNodes, after.stackNode.Has n.id ∧
    after.stackNode.weight StackNode.sampleCount n.id =
      before.stackNode.weight StackNode.sampleCount n.id + n.sampleCount

def NothingPastLimit (p : StoData) (db : Db) : Prop :=
  (∀ d ∈ p.stackNodeDatas.drop (bindLimit / 4), db.stackNodeData.Has d.id) ∧
  ∀ n ∈ p.stackNodes.drop (bindLimit / 4), db.stackNode.Has n.id ∧ n.sampleCount = 0

theorem stamp_id (r : Request) : Executable.id ∘ stamp r = Executable.id := rfl

theorem StoData.FitsInto.framesUnderOneId (hf : r.payload.FitsInto db) :
    FramesUnderOneId (db.stackNodeData.rows ++ r.datas) := by
  have hsub : ∀ x ∈ db.stackNodeData.rows ++ r.datas,
      x ∈ db.stackNodeData.rows ++ r.payload.stackNodeDatas := by
    intro x hx
    rcases List.mem_append.mp hx with hx | hx
    · exact List.mem_append_left _ hx
    · exact List.mem_append_right _ (List.mem_of_mem_take hx)
  exact fun a ha b hb ↦ hf.frames a (hsub a ha) b (hsub b hb)

theorem executables_length_le (hok : (dataIngest pg r db).2 = none) :
    r.payload.profiledBinaries.length ≤ bindLimit / 4 := by
  obtain ⟨db₁, db₂, _, h₂, _⟩ := dataIngest_ok.mp (Prod.ext (y := (_, none)) rfl hok)
  obtain ⟨⟨_, hparams, _⟩, _⟩ := insertExecutable_ok.mp h₂
  simp only [executableColumns, Request.executables, List.length_map, List.length_take, bindLimit,
    maxParameters] at hparams ⊢
  omega

/-- What an acknowledged request leaves out are the rows past the limit, so it stores
everything if and only if these bring nothing new. -/
theorem stores_everything_iff (hf : r.payload.FitsInto db) (hok : (dataIngest pg r db).2 = none) :
    StoresEverything r.payload db (dataIngest pg r db).1 ↔ NothingPastLimit r.payload db := by
  have hlen := executables_length_le hok
  rw [dataIngest_eq hf.framesUnderOneId hok]
  have hnode := Table.weight_upsertAll_take addStackNode StackNode.sampleCount (fun _ _ ↦ rfl)
    db.stackNode hf.nodes_nodup (bindLimit / 4)
  have hdata := Table.weight_upsertAll_take (.first : Merge StackNodeData.id) (fun _ ↦ 0)
    (fun _ _ ↦ rfl) db.stackNodeData hf.datas_nodup (bindLimit / 4)
  have hexe : ∀ e ∈ r.payload.profiledBinaries,
      (db.executable.upsertAll addExecutable r.executables).Has e.id ∧
      (db.executable.upsertAll addExecutable r.executables).weight Executable.sampleCount e.id =
        db.executable.weight Executable.sampleCount e.id + e.sampleCount := by
    intro e he
    have hall : r.executables = r.payload.profiledBinaries.map (stamp r) := by
      rw [Request.executables, List.take_of_length_le hlen]
    have hnodup : (r.executables.map Executable.id).Nodup := by
      rw [hall, List.map_map, stamp_id]
      exact hf.executables_nodup
    have hw := (Table.weight_upsertAll_take addExecutable Executable.sampleCount (fun _ _ ↦ rfl)
      db.executable hnodup r.executables.length (stamp r e)).1
    rw [List.take_length] at hw
    exact hw (hall ▸ List.mem_map_of_mem he)
  constructor
  · intro hx
    obtain ⟨hd, _, hn⟩ := hx
    refine ⟨fun d hdrop ↦ ?_, fun n hdrop ↦ ?_⟩
    · exact ((hdata d).2 hdrop).1.mp (hd d (List.mem_of_mem_drop hdrop))
    · obtain ⟨hhas, hw⟩ := hn n (List.mem_of_mem_drop hdrop)
      obtain ⟨hhas', hw'⟩ := (hnode n).2 hdrop
      refine ⟨hhas'.mp hhas, ?_⟩
      have hadd := hw'.symm.trans hw
      omega
  · intro hx
    obtain ⟨hd, hn⟩ := hx
    refine ⟨fun d hmem ↦ ?_, hexe, fun n hmem ↦ ?_⟩
    · rcases mem_take_or_drop (bindLimit / 4) hmem with htake | hdrop
      · exact ((hdata d).1 htake).1
      · exact ((hdata d).2 hdrop).1.mpr (hd d hdrop)
    · rcases mem_take_or_drop (bindLimit / 4) hmem with htake | hdrop
      · exact (hnode n).1 htake
      · obtain ⟨hhas, hzero⟩ := hn n hdrop
        obtain ⟨hhas', hw'⟩ := (hnode n).2 hdrop
        exact ⟨hhas'.mpr hhas, by rw [hzero, add_zero]; exact hw'⟩

def rootNodes (n : ℕ) : List StackNode := (List.range n).map fun i ↦ ⟨Int64.ofNat i, none, 1, 1, 1⟩

theorem ofNat_inj {i j : ℕ} (hi : i < 2 ^ 63) (hj : j < 2 ^ 63)
    (h : Int64.ofNat i = Int64.ofNat j) : i = j := by
  have hh := congrArg Int64.toInt h
  rw [Int64.toInt_ofNat_of_lt hi, Int64.toInt_ofNat_of_lt hj] at hh
  exact Int.ofNat.inj hh

theorem mem_rootNodes {n : ℕ} {x : StackNode} :
    x ∈ rootNodes n ↔ ∃ i < n, x = ⟨Int64.ofNat i, none, 1, 1, 1⟩ := by
  simp only [rootNodes, List.mem_map, List.mem_range]
  exact exists_congr fun _ ↦ and_congr_right fun _ ↦ eq_comm

theorem rootNodes_nodup {n : ℕ} (hn : n ≤ 2 ^ 63) : ((rootNodes n).map StackNode.id).Nodup := by
  rw [rootNodes, List.map_map]
  refine List.Nodup.map_on (fun i hi j hj h ↦ ?_) List.nodup_range
  exact ofNat_inj ((List.mem_range.mp hi).trans_le hn) ((List.mem_range.mp hj).trans_le hn) h

def wideRequest (n : ℕ) : Request where
  payload :=
    { stackNodes := rootNodes n
      stackNodeDatas := [⟨1, "main", none, none⟩]
      profiledBinaries := [⟨1, "Cycles", none, "demo", none, none, 1, 1, 1⟩] }
  utcNow := 0
  dbNow := 0

theorem wideRequest_fits {n : ℕ} (h : 0 < n) (hn : n ≤ 2 ^ 63) :
    (wideRequest n).payload.FitsInto .empty where
  nodes_ne := by simp [wideRequest, rootNodes, h.ne']
  datas_ne := by simp [wideRequest]
  executables_ne := by simp [wideRequest]
  nodes_nodup := rootNodes_nodup hn
  datas_nodup := by simp [wideRequest]
  executables_nodup := by simp [wideRequest]
  parents x hx q hq := by
    obtain ⟨i, _, rfl⟩ := mem_rootNodes.mp hx
    cases hq
  datas x hx := by
    obtain ⟨i, _, rfl⟩ := mem_rootNodes.mp hx
    simp [wideRequest]
  executables x hx := by
    obtain ⟨i, _, rfl⟩ := mem_rootNodes.mp hx
    simp [wideRequest]
  frames a ha b hb _ _ _ := by
    simp only [wideRequest, Db.empty, Table.empty, List.nil_append, List.mem_singleton] at ha hb
    rw [ha, hb]

theorem wideRequest_nodes (n : ℕ) : (wideRequest n).nodes = rootNodes (min (bindLimit / 4) n) := by
  rw [Request.nodes, wideRequest, rootNodes, ← List.map_take, List.take_range]
  rfl

theorem wideRequest_acceptable {n : ℕ} (h : 0 < n) :
    (wideRequest n).Acceptable lenientPostgres .empty where
  datas := by
    change (stackNodeDataColumns lenientPostgres).Admits [⟨1, "main", none, none⟩]
    refine ⟨by simp, by decide, by decide⟩
  indexable _ _ := rfl
  executables := by
    change (executableColumns lenientPostgres).Admits
      [⟨1, "Cycles", none, "demo", some 0, some 0, 1, 1, 1⟩]
    refine ⟨by simp, by decide, by decide⟩
  executables_fit := by
    change ∀ e ∈ [(⟨1, "Cycles", none, "demo", some 0, some 0, 1, 1, 1⟩ : Executable)], _
    decide
  nodes := by
    rw [wideRequest_nodes]
    refine ⟨?_, ?_, fun x hx ↦ ?_⟩
    · simp [rootNodes, bindLimit, h.ne']
    · simp only [stackNodeColumns, rootNodes, List.length_map, List.length_range, maxParameters,
        bindLimit]
      omega
    · obtain ⟨i, _, rfl⟩ := mem_rootNodes.mp hx
      rfl
  nodes_fit x hx := by
    rw [wideRequest_nodes] at hx
    obtain ⟨i, _, rfl⟩ := mem_rootNodes.mp hx
    rfl

theorem wideRequest_acknowledged {n : ℕ} (h : 0 < n) :
    (dataIngest lenientPostgres (wideRequest n) .empty).2 = none := by
  have hmin : min (bindLimit / 4) n ≤ 2 ^ 63 := (Nat.min_le_left _ _).trans (by decide)
  rw [dataIngest_of_acceptable (wideRequest_acceptable h)]
  · exact fun a ha b hb _ _ _ ↦ by
      rw [List.mem_singleton.mp ha, List.mem_singleton.mp hb]
  · exact List.nodup_singleton _
  · rw [wideRequest_nodes]
    exact rootNodes_nodup hmin
  · intro x hx _
    rw [wideRequest_nodes] at hx
    obtain ⟨i, _, rfl⟩ := mem_rootNodes.mp hx
    rfl

theorem wideRequest_drops {n : ℕ} (h : bindLimit / 4 < n) (hn : n ≤ 2 ^ 63) :
    ¬ StoresEverything (wideRequest n).payload .empty
      (dataIngest lenientPostgres (wideRequest n) .empty).1 := by
  have hpos : 0 < n := Nat.zero_lt_of_lt h
  intro hx
  obtain ⟨_, _, hnodes⟩ := hx
  rw [dataIngest_eq (wideRequest_fits hpos hn).framesUnderOneId (wideRequest_acknowledged hpos)]
    at hnodes
  have hmem : (⟨Int64.ofNat (bindLimit / 4), none, 1, 1, 1⟩ : StackNode) ∈ rootNodes n :=
    mem_rootNodes.mpr ⟨_, h, rfl⟩
  obtain hh | ⟨x, hx, hk⟩ := Table.has_upsertAll.mp (hnodes _ hmem).1
  · cases hh
  · rw [wideRequest_nodes, Nat.min_eq_left h.le] at hx
    obtain ⟨i, hi, rfl⟩ := mem_rootNodes.mp hx
    have hlt : bindLimit / 4 < 2 ^ 63 := by decide
    exact hi.ne (ofNat_inj (hi.trans hlt) hlt hk)

theorem drops_the_last_of_16384_nodes :
    (wideRequest 16384).payload.FitsInto .empty ∧
      (dataIngest lenientPostgres (wideRequest 16384) .empty).2 = none ∧
      ¬ StoresEverything (wideRequest 16384).payload .empty
        (dataIngest lenientPostgres (wideRequest 16384) .empty).1 :=
  ⟨wideRequest_fits (by decide) (by decide), wideRequest_acknowledged (by decide),
    wideRequest_drops (by decide) (by decide)⟩

theorem wideRequest_nothingPastLimit {n : ℕ} :
    NothingPastLimit (wideRequest n).payload .empty ↔ n ≤ bindLimit / 4 := by
  have hnil : (rootNodes n).drop (bindLimit / 4) = [] ↔ n ≤ bindLimit / 4 := by
    rw [List.drop_eq_nil_iff, rootNodes, List.length_map, List.length_range]
  rw [← hnil, NothingPastLimit]
  change (_ ∧ ∀ x ∈ (rootNodes n).drop (bindLimit / 4), (Db.empty.stackNode.Has x.id ∧ _)) ↔ _
  constructor
  · intro h
    rw [List.eq_nil_iff_forall_not_mem]
    intro x hx
    cases (h.2 x hx).1
  · intro h
    rw [h]
    exact ⟨nofun, nofun⟩

/-- The limit is the last number of nodes that are all stored. -/
theorem stores_everything_iff_up_to_16383_nodes :
    StoresEverything (wideRequest 16383).payload .empty
        (dataIngest lenientPostgres (wideRequest 16383) .empty).1 ∧
      ¬ StoresEverything (wideRequest 16384).payload .empty
        (dataIngest lenientPostgres (wideRequest 16384) .empty).1 := by
  rw [stores_everything_iff (wideRequest_fits (by decide) (by decide))
      (wideRequest_acknowledged (by decide)),
    stores_everything_iff (wideRequest_fits (by decide) (by decide))
      (wideRequest_acknowledged (by decide)),
    wideRequest_nothingPastLimit, wideRequest_nothingPastLimit]
  decide

/-- A failed request keeps what the inserts before the failing one did on their own. The
tables of that insert and of the later ones are as before, and nothing stored is lost. -/
theorem failed_ingest_keeps_earlier_inserts (e : SqlError) (he : (dataIngest pg r db).2 = some e) :
    (dataIngest pg r db).1.stackNode = db.stackNode ∧
    db.Grows (dataIngest pg r db).1 ∧
    (insertStackNodeData pg r db = .error e → (dataIngest pg r db).1 = db) ∧
    ∀ db₁, insertStackNodeData pg r db = .ok db₁ →
      (dataIngest pg r db).1.stackNodeData = db₁.stackNodeData ∧
      (insertExecutable pg r db₁ = .error e →
        (dataIngest pg r db).1.executable = db.executable) ∧
      ∀ db₂, insertExecutable pg r db₁ = .ok db₂ →
        (dataIngest pg r db).1.executable = db₂.executable ∧ insertStackNode r db₂ = .error e := by
  have hgrows := grows_dataIngest pg r db
  obtain ⟨e₁, h₁, hd⟩ | ⟨db₁, h₁, ⟨e₂, h₂, hd⟩ | ⟨db₂, h₂, ⟨e₃, h₃, hd⟩ | ⟨db₃, h₃, hd⟩⟩⟩ :=
    dataIngest_cases pg r db
  · rw [hd] at he hgrows ⊢
    exact ⟨rfl, hgrows, fun _ ↦ rfl, fun db₁ h ↦ (nomatch h₁.symm.trans h)⟩
  · obtain ⟨ds, _, rfl⟩ := insertStackNodeData_result h₁
    rw [hd] at he hgrows ⊢
    refine ⟨rfl, hgrows, fun h ↦ (nomatch h₁.symm.trans h), fun db₁ h ↦ ?_⟩
    obtain rfl := Except.ok.inj (h₁.symm.trans h)
    exact ⟨rfl, fun _ ↦ rfl, fun db₂ h ↦ (nomatch h₂.symm.trans h)⟩
  · obtain ⟨ds, _, rfl⟩ := insertStackNodeData_result h₁
    obtain ⟨_, _, _, rfl⟩ := insertExecutable_ok.mp h₂
    rw [hd] at he hgrows ⊢
    refine ⟨rfl, hgrows, fun h ↦ (nomatch h₁.symm.trans h), fun db₁ h ↦ ?_⟩
    obtain rfl := Except.ok.inj (h₁.symm.trans h)
    refine ⟨rfl, fun h ↦ (nomatch h₂.symm.trans h), fun db₂ h ↦ ?_⟩
    obtain rfl := Except.ok.inj (h₂.symm.trans h)
    exact ⟨rfl, by rw [h₃]; exact congrArg Except.error (Option.some_inj.mp he)⟩
  · rw [hd] at he
    cases he

/-- A node without its parent: the third insert fails, and the executable of the second
stays. -/
theorem half_applied_request :
    let r : Request := ⟨⟨[⟨2, some 7, 1, 1, 1⟩], [⟨1, "main", none, none⟩],
      [⟨1, "Cycles", none, "demo", none, none, 1, 1, 1⟩]⟩, 0, 0⟩
    (dataIngest lenientPostgres r .empty).2 = some .foreignKeyViolation ∧
      (dataIngest lenientPostgres r .empty).1.executable.rows ≠ Db.empty.executable.rows ∧
      (dataIngest lenientPostgres r .empty).1.stackNodeData.rows ≠ Db.empty.stackNodeData.rows := by
  decide +kernel

theorem failed_ingest_keeps_earlier_inserts_orphan :
    let r : Request := ⟨⟨[⟨2, some 7, 1, 1, 1⟩], [⟨1, "main", none, none⟩],
      [⟨1, "Cycles", none, "demo", none, none, 1, 1, 1⟩]⟩, 0, 0⟩
    (dataIngest lenientPostgres r .empty).1.stackNode = Db.empty.stackNode :=
  (failed_ingest_keeps_earlier_inserts .foreignKeyViolation (by decide +kernel)).1

end Sto
