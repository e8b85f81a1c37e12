import Sto.Server
import Sto.Defs

namespace Sto

open Library

variable {pg : Postgres} {r : Request} {db db' : Db}

def Request.datas (r : Request) : List StackNodeData :=
  r.payload.stackNodeDatas.take (bindLimit / 4)

def Request.executables (r : Request) : List Executable :=
  (r.payload.profiledBinaries.take (bindLimit / 4)).map (stamp r)

def Request.nodes (r : Request) : List StackNode := r.payload.stackNodes.take (bindLimit / 4)

theorem mem_take_or_drop {α : Type} {l : List α} (n : ℕ) {x : α} (hx : x ∈ l) :
    x ∈ l.take n ∨ x ∈ l.drop n := by
  rw [← List.take_append_drop n l] at hx
  exact List.mem_append.mp hx

theorem stackNode_clashes {a b : StackNode} (h : stackNodeColumns.clashes a b = true) :
    a.id = b.id := by
  simp only [stackNodeColumns, Bool.and_eq_true, decide_eq_true_eq] at h
  exact h.2

theorem stackNodeData_clashes {a b : StackNodeData}
    (h : (stackNodeDataColumns pg).clashes a b = true) :
    a.symbol = b.symbol ∧ a.file = b.file ∧ a.lineNumber = b.lineNumber := by
  simp only [stackNodeDataColumns, Bool.and_eq_true, decide_eq_true_eq] at h
  exact ⟨h.1.1, h.1.2.2, h.2.2⟩

theorem except_map_ok {α β ε : Type} {x : Except ε α} {f : α → β} {b : β} :
    x.map f = .ok b ↔ ∃ a, x = .ok a ∧ f a = b := by
  cases x <;> simp [Except.map]

theorem except_bind_ok {α β ε : Type} {x : Except ε α} {f : α → Except ε β} {b : β} :
    x.bind f = .ok b ↔ ∃ a, x = .ok a ∧ f a = .ok b := by
  cases x <;> simp [Except.bind]

theorem insertStackNodeData_result (h : insertStackNodeData pg r db = .ok db') :
    ∃ ds, ds.Sublist r.datas ∧
      db' = { db with stackNodeData := db.stackNodeData.upsertAll .first ds } := by
  obtain ⟨t, ht, rfl⟩ := except_map_ok.mp h
  obtain ⟨ds, hds, rfl⟩ := insertNewRows_result (insertOrSkip_ok.mp ht).2
  exact ⟨ds, hds, rfl⟩

/-- Equal frames under one id: then skipping a frame never leaves its id out. -/
def FramesUnderOneId (ds : List StackNodeData) : Prop :=
  ∀ a ∈ ds, ∀ b ∈ ds, a.symbol = b.symbol → a.file = b.file → a.lineNumber = b.lineNumber →
    a.id = b.id

theorem FramesUnderOneId.clashes {ds : List StackNodeData} (h : FramesUnderOneId ds) :
    ∀ a ∈ ds, ∀ b ∈ ds, (stackNodeDataColumns pg).clashes a b = true → a.id = b.id := by
  intro a ha b hb hab
  obtain ⟨hs, hf, hl⟩ := stackNodeData_clashes hab
  exact h a ha b hb hs hf hl

theorem insertStackNodeData_eq (hf : FramesUnderOneId (db.stackNodeData.rows ++ r.datas))
    (h : insertStackNodeData pg r db = .ok db') :
    db' = { db with stackNodeData := db.stackNodeData.upsertAll .first r.datas } := by
  obtain ⟨t, ht, rfl⟩ := except_map_ok.mp h
  rw [(insertNewRows_eq hf.clashes).1 t (insertOrSkip_ok.mp ht).2]

theorem insertStackNodeData_of_admits (hf : FramesUnderOneId (db.stackNodeData.rows ++ r.datas))
    (ha : (stackNodeDataColumns pg).Admits r.datas) (hs : ∀ d ∈ r.datas, pg.indexable d = true) :
    insertStackNodeData pg r db =
      .ok { db with stackNodeData := db.stackNodeData.upsertAll .first r.datas } := by
  refine except_map_ok.mpr ⟨_, insertOrSkip_ok.mpr ⟨ha, ?_⟩, rfl⟩
  exact (insertNewRows_eq hf.clashes).2 hs

theorem insertExecutable_ok :
    insertExecutable pg r db = .ok db' ↔
      (executableColumns pg).Admits r.executables ∧ (r.executables.map Executable.id).Nodup ∧
      (∀ e ∈ r.executables,
        (executableColumns pg).storable (addExecutable.absorb (db.executable.lookup e.id) e) = true) ∧
      db' = { db with executable := db.executable.upsertAll addExecutable r.executables } := by
  rw [insertExecutable, except_map_ok]
  simp only [insertOrUpdate_ok]
  constructor
  · intro hx
    obtain ⟨t, ⟨ha, ht⟩, rfl⟩ := hx
    obtain ⟨hn, _, hs, rfl⟩ := (upsertRows_ok (by simp [executableColumns])).mp ht
    exact ⟨ha, hn, hs, rfl⟩
  · intro hx
    obtain ⟨ha, hn, hs, rfl⟩ := hx
    exact ⟨_, ⟨ha, (upsertRows_ok (by simp [executableColumns])).mpr ⟨hn, by simp, hs, rfl⟩⟩, rfl⟩

theorem commitStackNode_ok {ns : List StackNode} {before after : Db} :
    commitStackNode ns before after = .ok db' ↔
      (∀ n ∈ ns, ¬ before.stackNode.Has n.id → after.resolves n = true) ∧ db' = after := by
  unfold commitStackNode
  split
  · rename_i h
    simp only [List.all_eq_true, List.mem_filter, decide_eq_true_eq, and_imp] at h
    exact ⟨fun he ↦ ⟨h, (Except.ok.inj he).symm⟩, fun ⟨_, he⟩ ↦ by rw [he]⟩
  · rename_i h
    simp only [List.all_eq_true, List.mem_filter, decide_eq_true_eq, and_imp] at h
    exact ⟨nofun, fun ⟨hr, _⟩ ↦ absurd hr h⟩

theorem insertStackNode_ok :
    insertStackNode r db = .ok db' ↔
      stackNodeColumns.Admits r.nodes ∧ (r.nodes.map StackNode.id).Nodup ∧
      (∀ n ∈ r.nodes,
        stackNodeColumns.storable (addStackNode.absorb (db.stackNode.lookup n.id) n) = true) ∧
      db' = { db with stackNode := db.stackNode.upsertAll addStackNode r.nodes } ∧
      ∀ n ∈ r.nodes, ¬ db.stackNode.Has n.id → db'.resolves n = true := by
  rw [insertStackNode, except_bind_ok]
  simp only [insertOrUpdate_ok, commitStackNode_ok]
  constructor
  · intro hx
    obtain ⟨t, ⟨ha, ht⟩, hr, rfl⟩ := hx
    obtain ⟨hn, _, hs, rfl⟩ := (upsertRows_ok fun _ _ ↦ stackNode_clashes).mp ht
    exact ⟨ha, hn, hs, rfl, hr⟩
  · intro hx
    obtain ⟨ha, hn, hs, rfl, hr⟩ := hx
    exact ⟨_, ⟨ha, (upsertRows_ok fun _ _ ↦ stackNode_clashes).mpr ⟨hn, by simp, hs, rfl⟩⟩, hr, rfl⟩

theorem dataIngest_cases (pg : Postgres) (r : Request) (db : Db) :
    (∃ e, insertStackNodeData pg r db = .error e ∧ dataIngest pg r db = (db, some e)) ∨
    ∃ db₁, insertStackNodeData pg r db = .ok db₁ ∧
      ((∃ e, insertExecutable pg r db₁ = .error e ∧ dataIngest pg r db = (db₁, some e)) ∨
      ∃ db₂, insertExecutable pg r db₁ = .ok db₂ ∧
        ((∃ e, insertStackNode r db₂ = .error e ∧ dataIngest pg r db = (db₂, some e)) ∨
        ∃ db₃, insertStackNode r db₂ = .ok db₃ ∧ dataIngest pg r db = (db₃, none))) := by
  unfold dataIngest transactions
  cases h₁ : insertStackNodeData pg r db with
  | error e => exact .inl ⟨e, rfl, by simp only [serial, h₁]⟩
  | ok db₁ =>
    refine .inr ⟨db₁, rfl, ?_⟩
    cases h₂ : insertExecutable pg r db₁ with
    | error e => exact .inl ⟨e, rfl, by simp only [serial, h₁, h₂]⟩
    | ok db₂ =>
      refine .inr ⟨db₂, rfl, ?_⟩
      cases h₃ : insertStackNode r db₂ with
      | error e => exact .inl ⟨e, rfl, by simp only [serial, h₁, h₂, h₃]⟩
      | ok db₃ => exact .inr ⟨db₃, rfl, by simp only [serial, h₁, h₂, h₃]⟩

theorem dataIngest_ok {db' : Db} :
    dataIngest pg r db = (db', none) ↔ ∃ db₁ db₂, insertStackNodeData pg r db = .ok db₁ ∧
      insertExecutable pg r db₁ = .ok db₂ ∧ insertStackNode r db₂ = .ok db' := by
  constructor
  · intro h
    obtain ⟨e, _, he⟩ | ⟨db₁, h₁, ⟨e, _, he⟩ | ⟨db₂, h₂, ⟨e, _, he⟩ | ⟨db₃, h₃, he⟩⟩⟩ :=
      dataIngest_cases pg r db <;> rw [h] at he <;> cases he
    exact ⟨db₁, db₂, h₁, h₂, h₃⟩
  · intro hx
    obtain ⟨db₁, db₂, h₁, h₂, h₃⟩ := hx
    simp only [dataIngest, transactions, serial, h₁, h₂, h₃]

def Request.applyTo (r : Request) (db : Db) : Db where
  stackNodeData := db.stackNodeData.upsertAll .first r.datas
  executable := db.executable.upsertAll addExecutable r.executables
  stackNode := db.stackNode.upsertAll addStackNode r.nodes

theorem dataIngest_eq (hf : FramesUnderOneId (db.stackNodeData.rows ++ r.datas))
    (hok : (dataIngest pg r db).2 = none) : (dataIngest pg r db).1 = r.applyTo db := by
  obtain ⟨db₁, db₂, h₁, h₂, h₃⟩ := dataIngest_ok.mp (Prod.ext (y := (_, none)) rfl hok)
  obtain rfl := insertStackNodeData_eq hf h₁
  obtain ⟨_, _, _, rfl⟩ := insertExecutable_ok.mp h₂
  obtain ⟨_, _, _, h, _⟩ := insertStackNode_ok.mp h₃
  exact h

structure Request.Acceptable (pg : Postgres) (r : Request) (db : Db) : Prop where
  datas : (stackNodeDataColumns pg).Admits r.datas
  indexable : ∀ d ∈ r.datas, pg.indexable d = true
  executables : (executableColumns pg).Admits r.executables
  executables_fit : ∀ e ∈ r.executables,
    (executableColumns pg).storable (addExecutable.absorb (db.executable.lookup e.id) e) = true
  nodes : stackNodeColumns.Admits r.nodes
  nodes_fit : ∀ n ∈ r.nodes,
    stackNodeColumns.storable (addStackNode.absorb (db.stackNode.lookup n.id) n) = true

theorem dataIngest_of_acceptable (ha : r.Acceptable pg db)
    (hf : FramesUnderOneId (db.stackNodeData.rows ++ r.datas))
    (he : (r.executables.map Executable.id).Nodup) (hn : (r.nodes.map StackNode.id).Nodup)
    (hr : ∀ n ∈ r.nodes, ¬ db.stackNode.Has n.id → (r.applyTo db).resolves n = true) :
    dataIngest pg r db = (r.applyTo db, none) := by
  refine dataIngest_ok.mpr ⟨_, _, insertStackNodeData_of_admits hf ha.datas ha.indexable,
    insertExecutable_ok.mpr ⟨ha.executables, he, ha.executables_fit, rfl⟩, ?_⟩
  exact insertStackNode_ok.mpr ⟨ha.nodes, hn, ha.nodes_fit, rfl, hr⟩

theorem Db.resolves_iff {n : StackNode} :
    db.resolves n = true ↔ (∀ p, n.parentId = some p → db.stackNode.Has p) ∧
      db.stackNodeData.Has n.stackNodeDataId ∧ db.executable.Has n.executableId := by
  simp [Db.resolves, Option.all_eq_true, and_assoc]

/-- What a later state keeps of an earlier one: every row, and of a node everything but
its count. -/
structure Db.Grows (a b : Db) : Prop where
  data : ∀ k d, a.stackNodeData.lookup k = some d → b.stackNodeData.lookup k = some d
  executable : ∀ k, a.executable.Has k → b.executable.Has k
  node : ∀ k n, a.stackNode.lookup k = some n → ∃ c, b.stackNode.lookup k =
    some { n with sampleCount := c }

theorem Db.Grows.refl (db : Db) : db.Grows db :=
  ⟨fun _ _ h ↦ h, fun _ h ↦ h, fun _ n h ↦ ⟨n.sampleCount, h⟩⟩

theorem Db.Grows.trans {a b c : Db} (h : a.Grows b) (h' : b.Grows c) : a.Grows c where
  data k d hd := h'.data k d (h.data k d hd)
  executable k hk := h'.executable k (h.executable k hk)
  node k n hn := by
    obtain ⟨c, hc⟩ := h.node k n hn
    obtain ⟨d, hd⟩ := h'.node k { n with sampleCount := c } hc
    exact ⟨d, hd⟩

theorem Db.Grows.has_data {a b : Db} (h : a.Grows b) {k : Int64} (hk : a.stackNodeData.Has k) :
    b.stackNodeData.Has k := by
  obtain ⟨d, hd⟩ := Table.has_iff_lookup.mp hk
  exact Table.has_iff_lookup.mpr ⟨d, h.data k d hd⟩

theorem Db.Grows.has_node {a b : Db} (h : a.Grows b) {k : Int64} (hk : a.stackNode.Has k) :
    b.stackNode.Has k := by
  obtain ⟨n, hn⟩ := Table.has_iff_lookup.mp hk
  obtain ⟨c, hc⟩ := h.node k n hn
  exact Table.has_iff_lookup.mpr ⟨_, hc⟩

theorem addStackNode_absorbAll (n : StackNode) (ns : List StackNode) :
    ∃ c, addStackNode.absorbAll (some n) ns = some { n with sampleCount := c } := by
  induction ns generalizing n with
  | nil => exact ⟨n.sampleCount, rfl⟩
  | cons m ns ih => exact ih _

theorem grows_stackNodeData (h : insertStackNodeData pg r db = .ok db') : db.Grows db' := by
  obtain ⟨ds, _, rfl⟩ := insertStackNodeData_result h
  refine ⟨fun k d hd ↦ ?_, fun _ h ↦ h, fun _ n h ↦ ⟨n.sampleCount, h⟩⟩
  rw [Table.lookup_upsertAll, hd, Merge.absorbAll_first_some]

theorem grows_executable (h : insertExecutable pg r db = .ok db') : db.Grows db' := by
  obtain ⟨_, _, _, rfl⟩ := insertExecutable_ok.mp h
  exact ⟨fun _ _ h ↦ h, fun _ h ↦ Table.has_upsertAll_of_has h, fun _ n h ↦ ⟨n.sampleCount, h⟩⟩

theorem grows_stackNode (h : insertStackNode r db = .ok db') : db.Grows db' := by
  obtain ⟨_, _, _, rfl, _⟩ := insertStackNode_ok.mp h
  refine ⟨fun _ _ h ↦ h, fun _ h ↦ h, fun k n hn ↦ ?_⟩
  rw [Table.lookup_upsertAll, hn]
  exact addStackNode_absorbAll n _

theorem grows_transaction {tx : Db → Except SqlError Db} (ht : tx ∈ transactions pg r)
    (h : tx db = .ok db') : db.Grows db' := by
  simp only [transactions, List.mem_cons, List.not_mem_nil, or_false] at ht
  rcases ht with rfl | rfl | rfl
  · exact grows_stackNodeData h
  · exact grows_executable h
  · exact grows_stackNode h

theorem grows_dataIngest (pg : Postgres) (r : Request) (db : Db) :
    db.Grows (dataIngest pg r db).1 :=
  serial_induction (P := db.Grows) (fun _ htx _ _ h hst ↦ h.trans (grows_transaction htx hst))
    (.refl db)

end Sto
