import Sto.Rendering
import Sto.Library.RowTree

namespace Sto

open Library

/-- A drawing shows a tree of rows, each with its own count and the frame that its data
describes. -/
inductive Shows (sdMap : Table StackNodeData.id) : D3FlamegraphData → RowTree StackNode → Prop
  | node {n : StackNode} {d : StackNodeData} {ts : List D3FlamegraphData}
      {kids : List (RowTree StackNode)} : sdMap.lookup n.stackNodeDataId = some d →
      List.Forall₂ (Shows sdMap) ts kids →
      Shows sdMap (drawNode n d (if kids = [] then none else some ts)) (.node n kids)

theorem exists_forest {β : Type} {R : StackNode → β → Prop} {S : β → RowTree StackNode → Prop}
    {P : RowTree StackNode → Prop} {l : List StackNode}
    (h : ∀ x ∈ l, ∃ t tree, RowTree.row tree = x ∧ R x t ∧ S t tree ∧ P tree) :
    ∃ ts forest, List.map RowTree.row forest = l ∧ List.Forall₂ R l ts ∧
      List.Forall₂ S ts forest ∧ ∀ tree ∈ forest, P tree := by
  induction l with
  | nil => exact ⟨[], [], rfl, .nil, .nil, fun _ h ↦ by cases h⟩
  | cons x l ih =>
    obtain ⟨t, tree, hrow, hr, hshows, hp⟩ := h x (by simp)
    obtain ⟨ts, forest, hl, hrs, hall, hps⟩ := ih fun y hy ↦ h y (by simp [hy])
    refine ⟨t :: ts, tree :: forest, ?_, .cons hr hrs, .cons hshows hall, ?_⟩
    · rw [List.map_cons, hrow, hl]
    · exact List.forall_mem_cons.mpr ⟨hp, hps⟩

variable {sn : List StackNode} {snd : List StackNodeData} {order : Arrangement}

theorem below_perm (h : (sn.map StackNode.id).Nodup) (k : Int64) :
    (below (order.arrange (nodeMap sn).rows) k).Perm
      (sn.filter fun v ↦ v.parentId = some k) :=
  ((order.perm _).trans (nodeMap_same h).perm).filter _

theorem buildDag_shows (h : (sn.map StackNode.id).Nodup)
    (hsd : ∀ n ∈ sn, (dataMap snd).Has n.stackNodeDataId) (depth : ℕ) {n : StackNode} {d : ℕ}
    (hn : n ∈ sn) (hd : Table.Depth StackNode.parentId ⟨sn, h⟩ n.id d)
    (hdepth : sn.length ≤ depth + d) :
    ∃ t tree, RowTree.row tree = n ∧
      buildDag (nodeMap sn) (dataMap snd) (siblingMap (order.arrange (nodeMap sn).rows)) depth
        n.id = .ok t ∧
      Shows (dataMap snd) t tree ∧ tree.Grown StackNode.id StackNode.parentId sn := by
  induction depth generalizing n d with
  | zero =>
    have hlt := hd.lt_length
    dsimp only at hlt
    omega
  | succ depth ih =>
    have hrow : (nodeMap sn).lookup n.id = some n := by
      rw [nodeMap_same h]
      exact Table.lookup_eq_some.mpr ⟨hn, rfl⟩
    obtain ⟨sd, hdata⟩ := Table.has_iff_lookup.mp (hsd n hn)
    have hperm : (below (order.arrange (nodeMap sn).rows) n.id).Perm
        (sn.filter fun v ↦ v.parentId = some n.id) := below_perm h n.id
    obtain ⟨ts, kids, hkids, hts, hshows, hgrown⟩ := exists_forest
      (R := fun x t ↦ buildDag (nodeMap sn) (dataMap snd)
        (siblingMap (order.arrange (nodeMap sn).rows)) depth x.id = .ok t)
      (P := RowTree.Grown StackNode.id StackNode.parentId sn) fun x hx ↦ by
        obtain ⟨hx, hparent⟩ := List.mem_filter.mp (hperm.mem_iff.mp hx)
        have hlink : Table.link StackNode.parentId ⟨sn, h⟩ x.id = some (some n.id) :=
          Table.link_eq_some.mpr ⟨x, hx, rfl, of_decide_eq_true hparent⟩
        exact ih hx (.child hlink hd) (by omega)
    have hnil : below (order.arrange (nodeMap sn).rows) n.id = [] ↔ kids = [] := by
      rw [← hkids, List.map_eq_nil_iff]
    refine ⟨_, .node n kids, rfl, buildDag_succ hrow hdata (siblingMap_lookup _ _) hts, ?_,
      .node hn (hkids ▸ hperm) hgrown⟩
    simp only [hnil]
    exact .node hdata hshows

theorem renderDag_shows (order : Arrangement) (h : (sn.map StackNode.id).Nodup)
    (hsd : ∀ n ∈ sn, (dataMap snd).Has n.stackNodeDataId) (pb : Executable) :
    ∃ ts forest, renderDag order sn snd pb = .ok (drawRoot pb ts) ∧
      List.Forall₂ (Shows (dataMap snd)) ts forest ∧
      List.map RowTree.row forest = sn.filter (fun x ↦ x.parentId.isNone) ∧
      ∀ tree ∈ forest, tree.Grown StackNode.id StackNode.parentId sn := by
  obtain ⟨ts, forest, hroots, hts, hshows, hgrown⟩ := exists_forest
    (R := fun x t ↦ buildDag (nodeMap sn) (dataMap snd)
      (siblingMap (order.arrange (nodeMap sn).rows)) sn.length x.id = .ok t)
    (P := RowTree.Grown StackNode.id StackNode.parentId sn)
    (l := sn.filter fun x ↦ x.parentId.isNone) fun x hx ↦ by
      obtain ⟨hx, hroot⟩ := List.mem_filter.mp hx
      have hlink : Table.link StackNode.parentId ⟨sn, h⟩ x.id = some none :=
        Table.link_eq_some.mpr ⟨x, hx, rfl, Option.isNone_iff_eq_none.mp hroot⟩
      exact buildDag_shows h hsd sn.length hx (.root hlink) le_rfl
  exact ⟨ts, forest, renderDag_ok.mpr ⟨ts, rfl, hts⟩, hshows, hroots, hgrown⟩

/-- Whatever the parents are that the rows name, drawing them ends, no lookup fails, and the
drawing has every row once that a row without parent leads to, where its parent puts it. -/
theorem rendering_is_exact (order : Arrangement) (h : (sn.map StackNode.id).Nodup)
    (hsd : ∀ n ∈ sn, (dataMap snd).Has n.stackNodeDataId) (pb : Executable) :
    ∃ ts forest, renderDag order sn snd pb = .ok (drawRoot pb ts) ∧
      List.Forall₂ (Shows (dataMap snd)) ts forest ∧
      RowTree.Exact StackNode.id StackNode.parentId sn forest := by
  obtain ⟨ts, forest, hdag, hshows, hroots, hgrown⟩ := renderDag_shows order h hsd pb
  have hperm : (forest.map RowTree.row).Perm (sn.filter fun x ↦ x.parentId.isNone) :=
    hroots ▸ .refl _
  exact ⟨ts, forest, hdag, hshows, RowTree.exact_of_grown (T := ⟨sn, h⟩) hperm hgrown⟩

/-- Two rows that name each other, one that names itself and one whose parent is missing are
left out. -/
theorem rendering_is_exact_demo :
    let sn : List StackNode := [⟨1, none, 7, 5, 4⟩, ⟨2, some 3, 7, 5, 1⟩, ⟨3, some 2, 7, 5, 1⟩,
      ⟨4, some 4, 7, 5, 1⟩, ⟨5, some 1, 7, 5, 3⟩, ⟨6, some 9, 7, 5, 1⟩]
    let snd : List StackNodeData := [⟨7, "main", none, none⟩]
    let pb : Executable := ⟨5, "Cycles", none, "demo", none, none, 4, 0, 0⟩
    ∃ ts forest, renderDag .reversed sn snd pb = .ok (drawRoot pb ts) ∧
      List.Forall₂ (Shows (dataMap snd)) ts forest ∧
      RowTree.Exact StackNode.id StackNode.parentId sn forest := by
  intro sn snd pb
  exact rendering_is_exact .reversed (by decide) (by decide) pb

end Sto
