import Sto.RenderedForest
import Sto.Library.Query

namespace Sto

open Library

mutual

inductive Jsonb
  | null
  | number (n : ℤ)
  | string (s : String)
  | array (items : JsonbItems)
  | object (fields : JsonbFields)
  deriving DecidableEq

inductive JsonbItems
  | nil
  | cons (x : Jsonb) (items : JsonbItems)
  deriving DecidableEq

inductive JsonbFields
  | nil
  | cons (key : String) (x : Jsonb) (fields : JsonbFields)
  deriving DecidableEq

end

def JsonbItems.of : List Jsonb → JsonbItems
  | [] => .nil
  | x :: xs => .cons x (of xs)

def JsonbFields.of : List (String × Jsonb) → JsonbFields
  | [] => .nil
  | (key, x) :: fields => .cons key x (of fields)

/-- A null among the values is an item of the array, and no values at all give a null. -/
def jsonbAgg : List (Option Jsonb) → Option Jsonb
  | [] => none
  | xs => some (.array (.of (xs.map fun x ↦ x.getD .null)))

/-- The columns that `subtree` groups by. -/
structure SubtreeRow where
  id : Int64
  filename : Option String
  lineNumber : Option Int32
  name : String
  value : ℤ
  deriving DecidableEq

def subtreeRow (n : StackNode) (snd : StackNodeData) : SubtreeRow :=
  ⟨n.id, snd.file, snd.lineNumber, snd.symbol, n.sampleCount⟩

def SubtreeRow.toJsonb (r : SubtreeRow) (children : Option Jsonb) : Jsonb :=
  .object (.of
    [("id", .number r.id.toInt),
     ("filename", r.filename.elim .null .string),
     ("line_number", r.lineNumber.elim .null fun l ↦ .number l.toInt),
     ("name", .string r.name),
     ("value", .number r.value),
     ("children", children.getD .null)])

structure SubtreeJoin where
  n : StackNode
  c : StackNode
  snd : StackNodeData

/-- `stack_node n join stack_node c on n.id = c.parent_id join stack_node_data snd
on n.stack_node_data_id = snd.id where n.id = rootid` -/
def subtreeJoin (rootid : Int64) (db : Db) : List SubtreeJoin :=
  (db.stackNode.rows.filter fun n ↦ n.id = rootid).flatMap fun n ↦
    (db.stackNode.rows.filter fun c ↦ c.parentId = some n.id).flatMap fun c ↦
      (db.stackNodeData.rows.filter fun snd ↦ snd.id = n.stackNodeDataId).map fun snd ↦ ⟨n, c, snd⟩

/-- The two queries around the join. All rows have one `n.id`, so that ordering by it leaves
their order open. -/
def subtreeAgg (order : Arrangement) (rows : List (SubtreeRow × Option Jsonb)) : Option Jsonb :=
  let sub := order.arrange rows.dedup
  let x := ((groupBy Prod.fst sub).map fun g ↦ (g.1, jsonbAgg (g.2.map Prod.snd))).dedup
  jsonbAgg ((order.arrange x).map fun r ↦ some (r.1.toJsonb r.2))

/-- The function as the migration leaves it. -/
def subtree (order : Arrangement) (db : Db) : ℕ → Int64 → Except QueryError (Option Jsonb)
  | 0, _ => .error .stackDepthExceeded
  | depth + 1, rootid =>
    ((subtreeJoin rootid db).mapM fun j ↦ (subtree order db depth j.c.id).map fun children ↦
      (subtreeRow j.n j.snd, children)).map (subtreeAgg order)

structure Entry where
  name : Jsonb
  filename : Jsonb
  lineNumber : Jsonb
  value : Jsonb

def JsonbFields.get (key : String) : JsonbFields → Jsonb
  | .nil => .null
  | .cons k x fields => if k = key then x else fields.get key

def JsonbFields.entry (fields : JsonbFields) : Entry :=
  ⟨fields.get "name", fields.get "filename", fields.get "line_number", fields.get "value"⟩

mutual

/-- The nodes that a value spells when nested arrays are flattened. -/
def Jsonb.read : Jsonb → List (RowTree Entry)
  | .array items => items.read
  | .object fields => [.node fields.entry fields.children]
  | _ => []

def JsonbItems.read : JsonbItems → List (RowTree Entry)
  | .nil => []
  | .cons x items => x.read ++ items.read

def JsonbFields.children : JsonbFields → List (RowTree Entry)
  | .nil => []
  | .cons key x fields => if key = "children" then x.read else fields.children

end

def spelled (j : Option Jsonb) : List (RowTree Entry) := (j.getD .null).read

def entry (n : StackNode) (d : StackNodeData) : Entry where
  name := .string d.symbol
  filename := d.file.elim .null .string
  lineNumber := d.lineNumber.elim .null fun l ↦ .number l.toInt
  value := .number n.sampleCount

/-- What is read is a tree of rows, each with its own count and the frame that its data
describes. -/
inductive Spells (snd : Table StackNodeData.id) : RowTree Entry → RowTree StackNode → Prop
  | node {n : StackNode} {d : StackNodeData} {es : List (RowTree Entry)}
      {kids : List (RowTree StackNode)} : snd.lookup n.stackNodeDataId = some d →
      List.Forall₂ (Spells snd) es kids → Spells snd (.node (entry n d) es) (.node n kids)

/-- The answer is the tree of all rows below `r`, its siblings in some order. -/
def SpellsTree (db : Db) (r : StackNode) (j : Option Jsonb) : Prop :=
  ∃ tree, RowTree.row tree = r ∧ tree.Grown StackNode.id StackNode.parentId db.stackNode.rows ∧
    List.Forall₂ (Spells db.stackNodeData) (spelled j) [tree]

theorem read_of (xs : List Jsonb) : (JsonbItems.of xs).read = xs.flatMap Jsonb.read := by
  induction xs with
  | nil => rfl
  | cons x xs ih => rw [JsonbItems.of, JsonbItems.read, ih, List.flatMap_cons]

theorem spelled_jsonbAgg (xs : List (Option Jsonb)) :
    spelled (jsonbAgg xs) = xs.flatMap spelled := by
  cases xs with
  | nil => rfl
  | cons x xs =>
    change (JsonbItems.of ((x :: xs).map fun x ↦ x.getD .null)).read = _
    rw [read_of, List.flatMap_map]
    rfl

theorem read_toJsonb (n : StackNode) (d : StackNodeData) (children : Option Jsonb) :
    ((subtreeRow n d).toJsonb children).read = [.node (entry n d) (spelled children)] := by
  simp [SubtreeRow.toJsonb, subtreeRow, JsonbFields.of, Jsonb.read, JsonbFields.entry,
    JsonbFields.get, JsonbFields.children, entry, spelled]

theorem toJsonb_id {r r' : SubtreeRow} {x x' : Option Jsonb} (h : r.toJsonb x = r'.toJsonb x') :
    r.id = r'.id := by
  simp only [SubtreeRow.toJsonb, JsonbFields.of, Jsonb.object.injEq, JsonbFields.cons.injEq,
    Jsonb.number.injEq, true_and] at h
  exact Int64.toInt_inj.mp h.1

theorem subtreeAgg_nil (order : Arrangement) : subtreeAgg order [] = none := by
  simp [subtreeAgg, jsonbAgg]

theorem subtreeAgg_same (order : Arrangement) (r : SubtreeRow) {js : List (Option Jsonb)}
    (h : js ≠ []) : ∃ L : List (Option Jsonb), L.Perm js.dedup ∧
      subtreeAgg order (js.map (Prod.mk r)) = some (.array (.of [r.toJsonb (jsonbAgg L)])) := by
  have hdedup : (js.map (Prod.mk r)).dedup = js.dedup.map (Prod.mk r) :=
    List.dedup_map_of_injective (fun _ _ hx ↦ (Prod.mk.inj hx).2) js
  have hperm := order.perm (js.dedup.map (Prod.mk r))
  have hne : order.arrange (js.dedup.map (Prod.mk r)) ≠ [] := by
    rwa [Ne, order.arrange_eq_nil, List.map_eq_nil_iff, List.dedup_eq_nil]
  have hsame : ∀ x ∈ order.arrange (js.dedup.map (Prod.mk r)), x.1 = r := by
    intro x hx
    obtain ⟨j, _, rfl⟩ := List.mem_map.mp (hperm.mem_iff.mp hx)
    rfl
  refine ⟨(order.arrange (js.dedup.map (Prod.mk r))).map Prod.snd, ?_, ?_⟩
  · have hsnd := hperm.map Prod.snd
    rwa [List.map_map, List.map_id''] at hsnd
    exact fun _ ↦ rfl
  · rw [subtreeAgg, hdedup, groupBy_same hne hsame, List.map_singleton,
      (List.nodup_singleton _).dedup, order.arrange_singleton]
    rfl

theorem subtreeJoin_eq {db : Db} {n : StackNode} {d : StackNodeData}
    (hn : db.stackNode.lookup n.id = some n)
    (hd : db.stackNodeData.lookup n.stackNodeDataId = some d) :
    subtreeJoin n.id db = (below db.stackNode.rows n.id).map fun c ↦ ⟨n, c, d⟩ := by
  rw [subtreeJoin, Table.filter_key _ (.refl _), hn, Option.toList_some, List.flatMap_singleton,
    Table.filter_key _ (.refl _), hd, Option.toList_some, below]
  exact List.map_eq_flatMap.symm

theorem forall₂_flatMap {α β γ : Type*} {R : β → γ → Prop} {f : α → List β} {g : α → List γ}
    {l : List α} (h : ∀ x ∈ l, List.Forall₂ R (f x) (g x)) :
    List.Forall₂ R (l.flatMap f) (l.flatMap g) := by
  induction l with
  | nil => exact .nil
  | cons x l ih =>
    rw [List.flatMap_cons, List.flatMap_cons]
    exact List.rel_append (h x (by simp)) (ih fun y hy ↦ h y (by simp [hy]))

/-- What the function answers for the root of a tree: its inner rows, or a null if it has
none. -/
structure Answers (db : Db) (j : Option Jsonb) (tree : RowTree StackNode) : Prop where
  inner : List.Forall₂ (Spells db.stackNodeData) (spelled j) tree.inner
  leaf : j = none → tree.inner = []
  root : ∀ x, j = some x → ∃ r children, r.id = tree.row.id ∧
    x = .array (.of [SubtreeRow.toJsonb r children])

theorem Answers.children {db : Db} {js L : List (Option Jsonb)}
    {forest : List (RowTree StackNode)} (h : List.Forall₂ (Answers db) js forest)
    (hids : (forest.map fun t ↦ t.row.id).Nodup) (hL : L.Perm js.dedup) :
    ∃ kids : List (RowTree StackNode), kids.Perm forest ∧
      List.Forall₂ (Spells db.stackNodeData) (L.flatMap spelled) (kids.flatMap RowTree.inner) := by
  obtain ⟨hlen, hpair⟩ := List.forall₂_iff_zip.mp h
  have hfst : (js.zip forest).map Prod.fst = js := List.map_fst_zip hlen.le
  have hsnd : (js.zip forest).map Prod.snd = forest := List.map_snd_zip hlen.ge
  have hkeys : ((js.zip forest).map fun p ↦ p.2.row.id).Nodup := by
    rw [← hsnd, List.map_map] at hids
    exact hids
  have hmem : ∀ p ∈ js.zip forest, p.1 ∈ L := fun p hp ↦
    hL.mem_iff.mpr (List.mem_dedup.mpr (List.of_mem_zip hp).1)
  refine ⟨(L.flatMap fun j ↦ (js.zip forest).filter fun p ↦ p.1 = j).map Prod.snd, ?_, ?_⟩
  · have hperm := (flatMap_filter_perm (hL.nodup_iff.mpr js.nodup_dedup) hmem).map Prod.snd
    rwa [hsnd] at hperm
  · rw [List.map_flatMap, List.flatMap_assoc]
    refine forall₂_flatMap fun j hj ↦ ?_
    cases j with
    | none =>
      rw [List.flatMap_eq_nil_iff.mpr]
      · exact .nil
      · intro tree htree
        obtain ⟨p, hp, rfl⟩ := List.mem_map.mp htree
        obtain ⟨hp, hnone⟩ := List.mem_filter.mp hp
        exact (hpair hp).leaf (of_decide_eq_true hnone)
    | some x =>
      rw [hL.mem_iff, List.mem_dedup, ← hfst] at hj
      obtain ⟨p, hp, hpx⟩ := List.mem_map.mp hj
      have hone : ((js.zip forest).filter fun q ↦ q.1 = some x) = [p] := by
        rw [← Table.filter_of_nodup hkeys hp]
        refine List.filter_congr fun q hq ↦ decide_eq_decide.mpr ⟨fun hqx ↦ ?_, fun hid ↦ ?_⟩
        · obtain ⟨r, c, hr, hx⟩ := (hpair hp).root x hpx
          obtain ⟨r', c', hr', hx'⟩ := (hpair hq).root x hqx
          rw [hx] at hx'
          simp only [Jsonb.array.injEq, JsonbItems.of, JsonbItems.cons.injEq] at hx'
          rw [← hr, ← hr', toJsonb_id hx'.1]
        · rw [List.inj_on_of_nodup_map hkeys hq hp hid, hpx]
      rw [hone, List.map_singleton, List.flatMap_singleton, ← hpx]
      exact (hpair hp).inner

variable {db : Db}

theorem subtree_answers (order : Arrangement)
    (hdata : ∀ n ∈ db.stackNode.rows, db.stackNodeData.Has n.stackNodeDataId)
    (depth : ℕ) {n : StackNode} {d : ℕ} (hn : n ∈ db.stackNode.rows)
    (hd : db.stackNode.Depth StackNode.parentId n.id d)
    (hdepth : db.stackNode.rows.length ≤ depth + d) :
    ∃ j tree, RowTree.row tree = n ∧ subtree order db depth n.id = .ok j ∧ Answers db j tree ∧
      tree.Grown StackNode.id StackNode.parentId db.stackNode.rows := by
  induction depth generalizing n d with
  | zero =>
    have := hd.lt_length
    omega
  | succ depth ih =>
    obtain ⟨sd, hsd⟩ := Table.has_iff_lookup.mp (hdata n hn)
    have hrow : db.stackNode.lookup n.id = some n := Table.lookup_eq_some.mpr ⟨hn, rfl⟩
    obtain ⟨js, forest, hforest, hjs, hanswers, hgrown⟩ := exists_forest
      (R := fun c j ↦ subtree order db depth c.id = .ok j) (S := Answers db)
      (P := RowTree.Grown StackNode.id StackNode.parentId db.stackNode.rows)
      (l := below db.stackNode.rows n.id) fun c hc ↦ by
        obtain ⟨hc, hparent⟩ := mem_below.mp hc
        exact ih hc (.child (Table.link_eq_some.mpr ⟨c, hc, rfl, hparent⟩) hd) (by omega)
    have hrows : subtree order db (depth + 1) n.id =
        .ok (subtreeAgg order (js.map (Prod.mk (subtreeRow n sd)))) := by
      refine except_map_ok.mpr ⟨_, mapM_ok.mpr ?_, rfl⟩
      rw [subtreeJoin_eq hrow hsd, List.forall₂_map_left_iff, List.forall₂_map_right_iff]
      refine hjs.imp fun c j hj ↦ ?_
      dsimp only
      rw [hj]
      rfl
    by_cases hleaf : forest = []
    · subst hleaf
      obtain rfl : js = [] := List.forall₂_nil_right_iff.mp hanswers
      refine ⟨none, .node n [], rfl, ?_, ⟨.nil, fun _ ↦ rfl, fun _ h ↦ by cases h⟩,
        .node hn ?_ fun _ h ↦ by cases h⟩
      · rw [hrows, List.map_nil, subtreeAgg_nil]
      · rw [← below, ← hforest]
    · have hjs : js ≠ [] := by
        rintro rfl
        exact hleaf (List.forall₂_nil_left_iff.mp hanswers)
      obtain ⟨L, hL, hagg⟩ := subtreeAgg_same order (subtreeRow n sd) hjs
      have hids : (forest.map fun t ↦ t.row.id).Nodup := by
        change (forest.map (StackNode.id ∘ RowTree.row)).Nodup
        rw [← List.map_map, hforest]
        exact db.stackNode.nodup.sublist (List.filter_sublist.map _)
      obtain ⟨kids, hkids, hspells⟩ := Answers.children hanswers hids hL
      have hne : kids ≠ [] := fun hnil ↦ hleaf (List.nil_perm.mp (hnil ▸ hkids))
      refine ⟨_, .node n kids, rfl, hrows.trans (congrArg _ hagg), ⟨?_, fun h ↦ (by cases h), ?_⟩,
        .node hn ?_ fun t ht ↦ hgrown t (hkids.mem_iff.mp ht)⟩
      · rw [RowTree.inner_node hne]
        change List.Forall₂ _ (JsonbItems.of [_]).read _
        rw [read_of, List.flatMap_singleton, read_toJsonb, spelled_jsonbAgg]
        exact .cons (.node hsd hspells) .nil
      · intro x hx
        exact ⟨_, _, rfl, (Option.some_inj.mp hx).symm⟩
      · rw [← below, ← hforest]
        exact hkids.map _

theorem sum_length_eq {snd : Table StackNodeData.id} {es : List (RowTree Entry)}
    {ts : List (RowTree StackNode)} (h : List.Forall₂ (Spells snd) es ts) :
    (es.flatMap RowTree.rows).length = (ts.flatMap RowTree.rows).length := by
  have hone : ∀ (t : RowTree StackNode) (e : RowTree Entry), Spells snd e t →
      e.rows.length = t.rows.length := by
    intro t
    induction t with
    | node n kids ih =>
      intro e he
      cases he with
      | node _ hkids =>
        rw [RowTree.rows_node, RowTree.rows_node, List.length_cons, List.length_cons]
        refine congrArg (· + 1) ?_
        induction hkids with
        | nil => rfl
        | cons he _ ihkids =>
          rw [List.flatMap_cons, List.flatMap_cons, List.length_append, List.length_append,
            ih _ (by simp) _ he, ihkids fun t ht ↦ ih t (by simp [ht])]
  induction h with
  | nil => rfl
  | cons he _ ih =>
    rw [List.flatMap_cons, List.flatMap_cons, List.length_append, List.length_append, hone _ _ he,
      ih]

/-- The join with the children drops every row that has none, and a tree has such rows: what
is answered is the tree without its leaves. -/
theorem subtree_is_never_the_tree (order : Arrangement)
    (hclosed : ∀ n ∈ db.stackNode.rows, ∀ p, n.parentId = some p → db.stackNode.Has p)
    (hacyclic : ∀ k m, db.stackNode.Has k →
      db.stackNode.climb StackNode.parentId (m + 1) k ≠ some k)
    (hdata : ∀ n ∈ db.stackNode.rows, db.stackNodeData.Has n.stackNodeDataId) {n : StackNode}
    (hn : n ∈ db.stackNode.rows) {depth : ℕ} (hdepth : db.stackNode.rows.length ≤ depth) :
    ∃ j, subtree order db depth n.id = .ok j ∧ ¬ SpellsTree db n j ∧
      ∃ tree, RowTree.row tree = n ∧
        tree.Grown StackNode.id StackNode.parentId db.stackNode.rows ∧
        List.Forall₂ (Spells db.stackNodeData) (spelled j) tree.inner := by
  have hhas : db.stackNode.Has n.id := Table.has_iff.mpr ⟨n, hn, rfl⟩
  obtain ⟨d, hd⟩ := Table.exists_depth_of_acyclic hclosed hacyclic hhas
  obtain ⟨j, tree, hroot, hj, hanswers, hgrown⟩ :=
    subtree_answers order hdata depth hn hd (by omega)
  refine ⟨j, hj, fun h ↦ ?_, tree, hroot, hgrown, hanswers.inner⟩
  obtain ⟨whole, hwhole, hwgrown, hspells⟩ := h
  have hrows : tree.rows.Perm whole.rows :=
    hgrown.rows_perm hwgrown (d := d) (hroot ▸ hd) (hroot.trans hwhole.symm)
  have hlen := (sum_length_eq hspells).symm.trans (sum_length_eq hanswers.inner)
  have hlt := tree.length_inner_lt
  rw [List.flatMap_singleton, ← hrows.length_eq] at hlen
  omega

def leafDb : Db where
  stackNodeData := ⟨[⟨7, "main", none, none⟩, ⟨8, "work", none, none⟩], by decide⟩
  executable := .empty
  stackNode := ⟨[⟨1, none, 7, 5, 2⟩, ⟨2, some 1, 8, 5, 2⟩], by decide⟩

theorem leafDb_isForest : leafDb.stackNode.IsForest StackNode.parentId := by
  have hroot : leafDb.stackNode.Depth StackNode.parentId 1 0 := .root rfl
  refine Table.isForest_of_depth fun k hk ↦ ?_
  obtain ⟨n, hn, rfl⟩ := Table.has_iff.mp hk
  rcases List.mem_cons.mp hn with rfl | hn
  · exact ⟨0, hroot⟩
  · obtain rfl := List.mem_singleton.mp hn
    exact ⟨1, .child rfl hroot⟩

theorem subtree_drops_the_leaf :
    leafDb.stackNode.IsForest StackNode.parentId ∧
      (∀ n ∈ leafDb.stackNode.rows, leafDb.stackNodeData.Has n.stackNodeDataId) ∧
      ∃ n ∈ leafDb.stackNode.rows, ∃ j, subtree .asIs leafDb 2 n.id = .ok j ∧
        ¬ SpellsTree leafDb n j := by
  refine ⟨leafDb_isForest, by decide, ⟨1, none, 7, 5, 2⟩, by decide, _, rfl, fun h ↦ ?_⟩
  obtain ⟨tree, hroot, hgrown, hspells⟩ := h
  have hlen : 1 = ([tree].flatMap RowTree.rows).length := sum_length_eq hspells
  cases hgrown with
  | node _ hkids _ =>
    subst hroot
    obtain ⟨leaf, rfl⟩ := List.length_eq_one_iff.mp
      ((List.length_map _).symm.trans hkids.length_eq)
    have hpos := List.length_pos_of_mem leaf.row_mem
    rw [List.flatMap_singleton, RowTree.rows_node, List.flatMap_singleton, List.length_cons] at hlen
    omega

theorem subtree_is_never_the_tree_demo :
    ∃ j, subtree .reversed leafDb 2 1 = .ok j ∧ ¬ SpellsTree leafDb ⟨1, none, 7, 5, 2⟩ j ∧
      ∃ tree, RowTree.row tree = ⟨1, none, 7, 5, 2⟩ ∧
        tree.Grown StackNode.id StackNode.parentId leafDb.stackNode.rows ∧
        List.Forall₂ (Spells leafDb.stackNodeData) (spelled j) tree.inner :=
  subtree_is_never_the_tree .reversed leafDb_isForest.closed leafDb_isForest.acyclic (by decide)
    (n := ⟨1, none, 7, 5, 2⟩) (by decide) (by decide)

end Sto
