import Sto.CallTree
import Sto.Replay

namespace Sto

open Library

variable {env : Externals} {e : Int64} {paths : List (List Frame)} {sn : List StackNode}
  {snd : List StackNodeData} {order : Arrangement}

theorem displayName_inj {a b : StackNodeData} (h : displayName a = displayName b)
    (hfile : a.file = b.file) (hline : a.lineNumber = b.lineNumber) : a.symbol = b.symbol := by
  unfold displayName at h
  rw [hfile, hline] at h
  cases hf : b.file with
  | none => simpa only [hf] using h
  | some x =>
    rw [hf] at h
    dsimp only at h
    split at h <;> cases hl : b.lineNumber <;> simpa only [hl, String.append_left_inj] using h

def Built (sn : List StackNode) (snd : List StackNodeData) (order : Arrangement) (v : StackNode)
    (t : D3FlamegraphData) : Prop :=
  ∃ depth, buildDag (nodeMap sn) (dataMap snd) (siblingMap (order.arrange (nodeMap sn).rows))
    depth v.id = .ok t

/-- Rows of an executable under the ids that the client gives them. -/
structure ClientRows (env : Externals) (e : Int64) (sn : List StackNode)
    (snd : List StackNodeData) : Prop where
  nodup : (sn.map StackNode.id).Nodup
  ids : ∀ v ∈ sn, v.id = (idStackNode env v).id
  executable : ∀ v ∈ sn, v.executableId = e
  frames : FrameRows env snd

theorem ClientRows.row_of_built (h : ClientRows env e sn snd) {v : StackNode} (hv : v ∈ sn)
    {p : List Frame} (hp : v.parentId = pathId env e none p) {f : Frame} {count : ℕ}
    {kids : List D3FlamegraphData} (hbuilt : Built sn snd order v (drawFrame env f count kids)) :
    some v.id = pathId env e none (p ++ [f]) ∧ v.sampleCount = count ∧
      List.Forall₂ (Built sn snd order) (below (order.arrange (nodeMap sn).rows) v.id) kids := by
  obtain ⟨depth, hbuilt⟩ := hbuilt
  have hlookup : (nodeMap sn).lookup v.id = some v :=
    Table.lookup_eq_some.mpr ⟨(nodeMap_same h.nodup).perm.mem_iff.mpr hv, rfl⟩
  obtain ⟨d, depth', ts, hd, hts, heq⟩ := buildDag_ok hlookup (siblingMap_lookup _ _) hbuilt
  simp only [drawFrame, drawNode, D3FlamegraphData.mk.injEq] at heq
  obtain ⟨hname, hvalue, hfile, hline, hkids⟩ := heq
  have hdata : v.stackNodeDataId = (dataRow env f).id := by
    have hsymbol : (dataRow env f).symbol = d.symbol := displayName_inj hname hfile hline
    have hrow := h.frames d (Table.mem_of_lookup_last hd)
    rw [← Table.lookup_key hd, hrow, ← hsymbol, ← hfile, ← hline]
    rfl
  refine ⟨?_, hvalue.symm, ?_⟩
  · rw [pathId_concat, h.ids v hv, Option.some_inj]
    simp only [idStackNode, pathNode, stackNodeBytes, hp, hdata, h.executable v hv]
  · have hkids' : kids = ts := by
      generalize below (order.arrange (nodeMap sn).rows) v.id = cs at hts hkids
      cases hts with
      | nil => cases kids <;> simp_all
      | cons _ _ => cases kids <;> simp_all
    rw [hkids']
    exact hts.imp fun _ _ hx ↦ ⟨depth', hx⟩

theorem ClientRows.read_one (h : ClientRows env e sn snd) {p : List Frame} {f : Frame}
    {cs : List StackNode} {ts : List D3FlamegraphData}
    (hforest : PrefixForest (drawFrame env) paths p ts)
    (hcs : ∀ v ∈ cs, v ∈ sn ∧ v.parentId = pathId env e none p)
    (hbuilt : List.Forall₂ (Built sn snd order) cs ts) (hstarts : Starts paths (p ++ [f])) :
    ∃ v ∈ sn, some v.id = pathId env e none (p ++ [f]) ∧
      v.sampleCount = countStarts paths (p ++ [f]) ∧
      ∃ kids, PrefixForest (drawFrame env) paths (p ++ [f]) kids ∧
        List.Forall₂ (Built sn snd order) (below (order.arrange (nodeMap sn).rows) v.id) kids := by
  obtain ⟨subtrees, _, hcomplete, hbelow⟩ := hforest
  obtain ⟨s, hs, rfl⟩ := List.mem_map.mp ((hcomplete f).mpr hstarts)
  obtain ⟨v, hv, hvt⟩ := exists_of_mem_right hbuilt (List.mem_map_of_mem hs)
  obtain ⟨hsn, hparent⟩ := hcs v hv
  obtain ⟨hid, hcount, hkids⟩ := h.row_of_built hsn hparent hvt
  exact ⟨v, hsn, hid, hcount, s.2, hbelow s hs, hkids⟩

theorem ClientRows.read (h : ClientRows env e sn snd) (q : List Frame) {p : List Frame} {f : Frame}
    {cs : List StackNode} {ts : List D3FlamegraphData}
    (hforest : PrefixForest (drawFrame env) paths p ts)
    (hcs : ∀ v ∈ cs, v ∈ sn ∧ v.parentId = pathId env e none p)
    (hbuilt : List.Forall₂ (Built sn snd order) cs ts)
    (hstarts : Starts paths (p ++ (q ++ [f]))) :
    ∃ v ∈ sn, some v.id = pathId env e none (p ++ (q ++ [f])) ∧
      v.sampleCount = countStarts paths (p ++ (q ++ [f])) := by
  induction q generalizing p cs ts with
  | nil =>
    obtain ⟨v, hv, hid, hcount, _⟩ := h.read_one hforest hcs hbuilt hstarts
    exact ⟨v, hv, hid, hcount⟩
  | cons g q ih =>
    have hsplit : p ++ (g :: q ++ [f]) = (p ++ [g]) ++ (q ++ [f]) := by simp
    rw [hsplit] at hstarts ⊢
    obtain ⟨v, _, hid, _, kids, hkids, hbelow⟩ := h.read_one hforest hcs hbuilt hstarts.append
    refine ih hkids (fun w hw ↦ ?_) hbelow hstarts
    rw [← hid]
    exact (mem_below_nodeMap h.nodup).mp hw

end Sto
