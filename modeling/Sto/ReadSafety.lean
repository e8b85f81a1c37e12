import Sto.RenderedForest
import Sto.Upload

namespace Sto

open Library

variable {pg : Postgres} {r : Request} {db db' : Db}

def Db.ForeignKeys (db : Db) : Prop := ∀ n ∈ db.stackNode.rows, db.resolves n = true

theorem Db.Grows.resolves (h : db.Grows db') {n : StackNode} (hn : db.resolves n = true) :
    db'.resolves n = true := by
  rw [Db.resolves_iff] at hn ⊢
  exact ⟨fun p hp ↦ h.has_node (hn.1 p hp), h.has_data hn.2.1, h.executable _ hn.2.2⟩

theorem resolves_congr {m n : StackNode} (h : (m.parentId, m.stackNodeDataId, m.executableId) =
    (n.parentId, n.stackNodeDataId, n.executableId)) : db.resolves m = db.resolves n := by
  simp only [Prod.mk.injEq] at h
  rw [Db.resolves, Db.resolves, h.1, h.2.1, h.2.2]

theorem foreignKeys_insertStackNode (hfk : db.ForeignKeys) (h : insertStackNode r db = .ok db') :
    db'.ForeignKeys := by
  have hgrows := grows_stackNode h
  obtain ⟨_, _, _, rfl, hnew⟩ := insertStackNode_ok.mp h
  intro n hn
  by_cases hold : db.stackNode.Has n.id
  · obtain ⟨m, hm⟩ := Table.has_iff_lookup.mp hold
    obtain ⟨c, hc⟩ := hgrows.node n.id m hm
    have hrow := Table.lookup_eq_some.mpr ⟨hn, rfl⟩
    obtain rfl := Option.some_inj.mp (hrow.symm.trans hc)
    have hres := hgrows.resolves (hfk m (Table.lookup_eq_some.mp hm).1)
    rwa [resolves_congr (m := m) rfl] at hres
  · obtain ⟨y, hy, hk, hf⟩ := Table.exists_source
      (f := fun n : StackNode ↦ (n.parentId, n.stackNodeDataId, n.executableId)) (fun _ _ ↦ rfl) hn
    rcases hy with hy | hy
    · exact absurd (hk ▸ Table.has_iff.mpr ⟨y, hy, rfl⟩) hold
    · rw [← resolves_congr hf]
      exact hnew y hy (hk ▸ hold)

theorem foreignKeys_transaction {tx : Db → Except SqlError Db} (ht : tx ∈ transactions pg r)
    (hfk : db.ForeignKeys) (h : tx db = .ok db') : db'.ForeignKeys := by
  have hgrows := grows_transaction ht h
  simp only [transactions, List.mem_cons, List.not_mem_nil, or_false] at ht
  rcases ht with rfl | rfl | rfl
  · obtain ⟨_, _, rfl⟩ := insertStackNodeData_result h
    exact fun n hn ↦ hgrows.resolves (hfk n hn)
  · obtain ⟨_, _, _, rfl⟩ := insertExecutable_ok.mp h
    exact fun n hn ↦ hgrows.resolves (hfk n hn)
  · exact foreignKeys_insertStackNode hfk h

theorem run_grows (pg : Postgres) {s : System Request Db SqlError} (hfk : s.store.ForeignKeys)
    (sched : List ℕ) :
    s.store.Grows (s.run (transactions pg) sched).store ∧
      (s.run (transactions pg) sched).store.ForeignKeys := by
  refine (System.run_induction (P := fun s' ↦ s.store.Grows s'.store ∧ s'.store.ForeignKeys)
    ⟨.refl _, hfk⟩ ?_ ?_ sched).1
  · intro s' i j tx st hx _ _ _ htx hst
    obtain ⟨hgrows, hfk⟩ := hx
    have hmem := List.mem_of_getElem? htx
    exact ⟨hgrows.trans (grows_transaction hmem hst), foreignKeys_transaction hmem hfk hst⟩
  · intro s' i j tx e h _ _ _ _ _
    exact h

theorem mem_selectStackNode {rows : Arrangement} {id : Int64} {n : StackNode} :
    n ∈ selectStackNode rows id db ↔ n ∈ db.stackNode.rows ∧ n.executableId = id := by
  simp [selectStackNode, Arrangement.mem_arrange]

theorem mem_selectStackNodeData {rows : Arrangement} {id : Int64} {d : StackNodeData} :
    d ∈ selectStackNodeData rows id db ↔ d ∈ db.stackNodeData.rows ∧
      ∃ n ∈ db.stackNode.rows, n.stackNodeDataId = d.id ∧ n.executableId = id := by
  simp only [selectStackNodeData, Arrangement.mem_arrange, List.mem_flatMap, List.mem_map,
    List.mem_filter, Bool.and_eq_true, decide_eq_true_eq]
  constructor
  · intro hx
    obtain ⟨d, hd, n, ⟨hn, href⟩, rfl⟩ := hx
    exact ⟨hd, n, hn, href⟩
  · intro hx
    obtain ⟨hd, n, hn, href⟩ := hx
    exact ⟨d, hd, n, ⟨hn, href⟩, rfl⟩

theorem selectStackNode_nodup {rows : Arrangement} {id : Int64} :
    ((selectStackNode rows id db).map StackNode.id).Nodup := by
  apply ((rows.perm _).map StackNode.id).nodup_iff.mpr
  exact db.stackNode.nodup.sublist (List.filter_sublist.map _)

theorem Db.Grows.selects_data (hfk : db.ForeignKeys) (h : db.Grows db') {rows : Arrangement}
    {id : Int64} {n : StackNode} (hn : n ∈ selectStackNode rows id db) :
    ∃ d ∈ selectStackNodeData rows id db', d.id = n.stackNodeDataId := by
  obtain ⟨hrow, hid⟩ := mem_selectStackNode.mp hn
  obtain ⟨d, hd, hdid⟩ := Table.has_iff.mp (h.has_data (Db.resolves_iff.mp (hfk n hrow)).2.1)
  obtain ⟨c, hc⟩ := h.node n.id n (Table.lookup_eq_some.mpr ⟨hrow, rfl⟩)
  have hrow' := (Table.lookup_eq_some.mp hc).1
  exact ⟨d, mem_selectStackNodeData.mpr ⟨hd, _, hrow', hdid.symm, hid⟩, hdid⟩

section Build

variable {sn : List StackNode} {snd : List StackNodeData} {order : Arrangement}

theorem mem_below_nodeMap (h : (sn.map StackNode.id).Nodup) {k : Int64} {v : StackNode} :
    v ∈ below (order.arrange (nodeMap sn).rows) k ↔ v ∈ sn ∧ v.parentId = some k := by
  rw [mem_below, order.mem_arrange, (nodeMap_same h).perm.mem_iff]

theorem renderDag_total (h : (sn.map StackNode.id).Nodup)
    (hsd : ∀ n ∈ sn, (dataMap snd).Has n.stackNodeDataId) (pb : Executable) :
    ∃ t, renderDag order sn snd pb = .ok t := by
  obtain ⟨ts, _, ht, _⟩ := renderDag_shows order h hsd pb
  exact ⟨drawRoot pb ts, ht⟩

end Build

/-- The three queries may see three different states: a profile that has a node when the
first one runs is drawn whole. -/
theorem reading_while_writing {s : System Request Db SqlError} (hfk : s.store.ForeignKeys)
    (σ₁ σ₂ σ₃ : List ℕ) (rows iter : Arrangement) (id : Int64)
    (hne : selectStackNode rows id (s.run (transactions pg) σ₁).store ≠ []) :
    ∃ pb, selectExecutable id (s.run (transactions pg) (σ₁ ++ σ₂ ++ σ₃)).store = some pb ∧
      ∃ t, renderDag iter (selectStackNode rows id (s.run (transactions pg) σ₁).store)
        (selectStackNodeData rows id (s.run (transactions pg) (σ₁ ++ σ₂)).store) pb = .ok t := by
  have hfk₁ := (run_grows pg hfk σ₁).2
  have h₂ := run_grows pg hfk₁ σ₂
  have h₃ := run_grows pg h₂.2 σ₃
  rw [← System.run_append] at h₂ h₃
  rw [← System.run_append] at h₃
  obtain ⟨n, hn⟩ := List.exists_mem_of_ne_nil _ hne
  obtain ⟨hrow, hid⟩ := mem_selectStackNode.mp hn
  have hexe := (h₂.1.trans h₃.1).executable _ (Db.resolves_iff.mp (hfk₁ n hrow)).2.2
  obtain ⟨pb, hpb⟩ := Table.has_iff_lookup.mp hexe
  refine ⟨pb, hid ▸ hpb, renderDag_total selectStackNode_nodup (fun m hm ↦ ?_) pb⟩
  obtain ⟨d, hd, hdid⟩ := h₂.1.selects_data hfk₁ hm
  exact Table.has_upsertAll.mpr (.inr ⟨d, hd, hdid⟩)

theorem reading_while_writing_demo :
    let r := demoUpload.request demoExternals
    let s : System Request Db SqlError := .start .empty [r, r]
    ∃ pb, selectExecutable 9544298
        (s.run (transactions lenientPostgres) ([0, 0, 0] ++ [1] ++ [1, 1])).store = some pb ∧
      ∃ t, renderDag .reversed
        (selectStackNode .asIs 9544298 (s.run (transactions lenientPostgres) [0, 0, 0]).store)
        (selectStackNodeData .asIs 9544298
          (s.run (transactions lenientPostgres) ([0, 0, 0] ++ [1])).store) pb = .ok t :=
  reading_while_writing (fun _ hn ↦ by cases hn) [0, 0, 0] [1] [1, 1] .asIs .reversed 9544298
    (by decide +kernel)

end Sto
