import Sto.Dag
import Sto.Ingest
import Sto.Library.ParentForest
import Mathlib.Data.List.Forall2

namespace Sto

open Library

theorem exists_forall₂ {α β : Type*} {R : α → β → Prop} {l : List α} (h : ∀ x ∈ l, ∃ y, R x y) :
    ∃ ys, List.Forall₂ R l ys := by
  induction l with
  | nil => exact ⟨[], .nil⟩
  | cons x l ih =>
    obtain ⟨y, hy⟩ := h x (by simp)
    obtain ⟨ys, hys⟩ := ih fun z hz ↦ h z (by simp [hz])
    exact ⟨y :: ys, .cons hy hys⟩

theorem mapM_ok {α β ε : Type} {f : α → Except ε β} {l : List α} {ys : List β} :
    l.mapM f = .ok ys ↔ List.Forall₂ (fun x y ↦ f x = .ok y) l ys := by
  constructor
  · intro h
    induction l generalizing ys with
    | nil =>
      cases h
      exact .nil
    | cons x l ih =>
      rw [List.mapM_cons] at h
      obtain ⟨y, hy, h⟩ := except_bind_ok.mp h
      obtain ⟨ys', hys, h⟩ := except_bind_ok.mp h
      cases h
      exact .cons hy (ih hys)
  · intro h
    induction h with
    | nil => rfl
    | cons hx _ ih => rw [List.mapM_cons, hx, ih]; rfl

theorem mapM_of_ok {α β ε : Type} {f : α → Except ε β} {g : α → β} {l : List α}
    (h : ∀ x ∈ l, f x = .ok (g x)) : l.mapM f = .ok (l.map g) := by
  rw [mapM_ok, List.forall₂_map_right_iff, List.forall₂_same]
  exact h

def nodeMap (sn : List StackNode) : Table StackNode.id := Table.empty.upsertAll .last sn

def dataMap (snd : List StackNodeData) : Table StackNodeData.id := Table.empty.upsertAll .last snd

def siblingMap (sn : List StackNode) : Table Siblings.parent :=
  Table.empty.upsertAll pushSibling (sn.filterMap siblingOf)

def below (sn : List StackNode) (k : Int64) : List StackNode :=
  sn.filter fun v ↦ v.parentId = some k

theorem mem_below {sn : List StackNode} {k : Int64} {v : StackNode} :
    v ∈ below sn k ↔ v ∈ sn ∧ v.parentId = some k := by
  simp [below]

theorem siblingMap_lookup (sn : List StackNode) (k : Int64) :
    (siblingMap sn).lookup k = if below sn k = [] then none else some ⟨k, below sn k⟩ := by
  induction sn using List.reverseRecOn with
  | nil => rfl
  | append_singleton sn v ih =>
    rw [siblingMap, List.filterMap_append, Table.upsertAll_append, ← siblingMap]
    rw [below, List.filter_append, ← below]
    cases hp : v.parentId with
    | none => simpa [siblingOf, hp, Table.upsertAll] using ih
    | some p =>
      have hone : [v].filterMap siblingOf = [⟨p, [v]⟩] := by simp [siblingOf, hp]
      rw [hone]
      change ((siblingMap sn).upsert pushSibling ⟨p, [v]⟩).lookup k = _
      rw [Table.lookup_upsert, ih]
      by_cases hk : p = k
      · subst hk
        by_cases hempty : below sn p = []
        · simp [hempty, hp, Merge.absorb]
        · simp [hempty, hp, Merge.absorb, pushSibling]
      · simp [hk, hp]

theorem nodeMap_same {sn : List StackNode} (h : (sn.map StackNode.id).Nodup) :
    (nodeMap sn).Same ⟨sn, h⟩ := Table.upsertAll_nodup .last h

section Build

variable {snIdMap : Table StackNode.id} {sdMap : Table StackNodeData.id}
  {snPIdMap : Table Siblings.parent}

def drawNode (n : StackNode) (d : StackNodeData) (children : Option (List D3FlamegraphData)) :
    D3FlamegraphData where
  name := displayName d
  value := n.sampleCount
  filename := d.file
  lineNumber := d.lineNumber
  children := children

theorem buildDag_succ {k : Int64} {n : StackNode} {d : StackNodeData} {cs : List StackNode}
    {ts : List D3FlamegraphData} {depth : ℕ} (hn : snIdMap.lookup k = some n)
    (hd : sdMap.lookup n.stackNodeDataId = some d)
    (hp : snPIdMap.lookup k = if cs = [] then none else some ⟨k, cs⟩)
    (hts : List.Forall₂ (fun x t ↦ buildDag snIdMap sdMap snPIdMap depth x.id = .ok t) cs ts) :
    buildDag snIdMap sdMap snPIdMap (depth + 1) k =
      .ok (drawNode n d (if cs = [] then none else some ts)) := by
  rw [buildDag, hn]
  dsimp only
  rw [hd]
  dsimp only
  rw [hp]
  by_cases hcs : cs = []
  · rw [if_pos hcs, if_pos hcs]
    rfl
  · rw [if_neg hcs, if_neg hcs]
    dsimp only
    rw [mapM_ok.mpr hts]
    rfl

theorem buildDag_ok {k : Int64} {n : StackNode} {cs : List StackNode} {t : D3FlamegraphData}
    {depth : ℕ} (hn : snIdMap.lookup k = some n)
    (hp : snPIdMap.lookup k = if cs = [] then none else some ⟨k, cs⟩)
    (h : buildDag snIdMap sdMap snPIdMap depth k = .ok t) :
    ∃ d depth' ts, sdMap.lookup n.stackNodeDataId = some d ∧
      List.Forall₂ (fun x t ↦ buildDag snIdMap sdMap snPIdMap depth' x.id = .ok t) cs ts ∧
      t = drawNode n d (if cs = [] then none else some ts) := by
  cases depth with
  | zero => cases h
  | succ depth =>
    rw [buildDag, hn] at h
    dsimp only at h
    cases hd : sdMap.lookup n.stackNodeDataId with
    | none =>
      rw [hd] at h
      cases h
    | some d =>
      rw [hd] at h
      dsimp only at h
      rw [hp] at h
      by_cases hcs : cs = []
      · rw [if_pos hcs] at h
        subst hcs
        exact ⟨d, depth, [], rfl, .nil, (Except.ok.inj h).symm⟩
      · rw [if_neg hcs] at h
        obtain ⟨ts, hts, h⟩ := except_map_ok.mp h
        refine ⟨d, depth, ts, rfl, mapM_ok.mp hts, ?_⟩
        rw [if_neg hcs]
        exact h.symm

end Build

/-- The root shows the total of its children, which is taken to fit into an `i64`. -/
def drawRoot (pb : Executable) (children : List D3FlamegraphData) : D3FlamegraphData where
  name := pb.basename
  value := (children.map D3FlamegraphData.value).sum
  filename := none
  lineNumber := none
  children := some children

theorem renderDag_ok {order : Arrangement} {sn : List StackNode} {snd : List StackNodeData}
    {pb : Executable} {t : D3FlamegraphData} :
    renderDag order sn snd pb = .ok t ↔ ∃ ts, t = drawRoot pb ts ∧
      List.Forall₂ (fun x t ↦ buildDag (nodeMap sn) (dataMap snd)
          (siblingMap (order.arrange (nodeMap sn).rows)) sn.length (StackNode.id x) = .ok t)
        (sn.filter fun x ↦ x.parentId.isNone) ts := by
  unfold renderDag
  dsimp only
  rw [← nodeMap, ← dataMap, ← siblingMap, except_map_ok]
  simp only [mapM_ok]
  exact exists_congr fun ts ↦ (and_congr_right fun _ ↦ eq_comm).trans and_comm

end Sto
