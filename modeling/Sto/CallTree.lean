import Sto.ReadSafety
import Sto.Library.PrefixForest

namespace Sto

open Library

def drawFrame (env : Externals) (f : Frame) (count : ℕ) (kids : List D3FlamegraphData) :
    D3FlamegraphData where
  name := displayName (dataRow env f)
  value := count
  filename := f.file
  lineNumber := f.lineNumber
  children := if kids.isEmpty then none else some kids

def pathRow (env : Externals) (e : Int64) (paths : List (List Frame)) (p : List Frame) (f : Frame) :
    StackNode :=
  { pathNode env e (pathId env e none p) f with sampleCount := countStarts paths (p ++ [f]) }

/-- The selected rows are those of the prefixes of the paths, each under an id of its own,
and their frames are among the selected frames. -/
structure Selects (env : Externals) (e : Int64) (paths : List (List Frame)) (sn : List StackNode)
    (snd : List StackNodeData) : Prop where
  nodup : (sn.map StackNode.id).Nodup
  mem : ∀ n, n ∈ sn ↔ ∃ p f, Starts paths (p ++ [f]) ∧ n = pathRow env e paths p f
  data : ∀ p f, Starts paths (p ++ [f]) →
    (dataMap snd).lookup (dataRow env f).id = some (dataRow env f)
  inj : ∀ p q, Starts paths p → Starts paths q → pathId env e none p = pathId env e none q → p = q

variable {env : Externals} {e : Int64} {paths : List (List Frame)} {sn : List StackNode}
  {snd : List StackNodeData} {order : Arrangement}

theorem pathRow_id (p : List Frame) (f : Frame) :
    some (pathRow env e paths p f).id = pathId env e none (p ++ [f]) := (pathId_concat e p f).symm

theorem forall₂_eq_map {α β : Type*} {g : β → α} {l : List α} {ys : List β}
    (h : List.Forall₂ (fun x y ↦ x = g y) l ys) : l = ys.map g := by
  induction h with
  | nil => rfl
  | cons hx _ ih => rw [hx, ih]; rfl

theorem exists_of_mem_right {α β : Type*} {R : α → β → Prop} {l : List α} {ys : List β}
    (h : List.Forall₂ R l ys) {y : β} (hy : y ∈ ys) : ∃ x ∈ l, R x y := by
  induction h with
  | nil => cases hy
  | cons hx _ ih =>
    rcases List.mem_cons.mp hy with rfl | hy
    · exact ⟨_, List.mem_cons_self, hx⟩
    · obtain ⟨x, hmem, hr⟩ := ih hy
      exact ⟨x, List.mem_cons_of_mem _ hmem, hr⟩

theorem Selects.forest (h : Selects env e paths sn snd) {p : List Frame} (hp : Starts paths p)
    {cs : List StackNode} (hcs : cs.Nodup)
    (hmem : ∀ v, v ∈ cs ↔ v ∈ sn ∧ v.parentId = pathId env e none p)
    (build : StackNode → Except DagError D3FlamegraphData)
    (hbuild : ∀ f, Starts paths (p ++ [f]) → pathRow env e paths p f ∈ cs → ∃ kids,
      PrefixForest (drawFrame env) paths (p ++ [f]) kids ∧ build (pathRow env e paths p f) =
        .ok (drawFrame env f (countStarts paths (p ++ [f])) kids)) :
    ∃ ts, PrefixForest (drawFrame env) paths p ts ∧
      List.Forall₂ (fun v t ↦ build v = .ok t) cs ts := by
  have hrow : ∀ v ∈ cs, ∃ s : Frame × List D3FlamegraphData, v = pathRow env e paths p s.1 ∧
      Starts paths (p ++ [s.1]) ∧ PrefixForest (drawFrame env) paths (p ++ [s.1]) s.2 ∧
      build v = .ok (drawFrame env s.1 (countStarts paths (p ++ [s.1])) s.2) := by
    intro v hv
    obtain ⟨hvsn, hparent⟩ := (hmem v).mp hv
    obtain ⟨q, f, hstarts, rfl⟩ := (h.mem v).mp hvsn
    obtain rfl : q = p := h.inj q p hstarts.append hp hparent
    obtain ⟨kids, hkids, hok⟩ := hbuild f hstarts hv
    exact ⟨(f, kids), rfl, hstarts, hkids, hok⟩
  obtain ⟨subtrees, hsub⟩ := exists_forall₂ hrow
  have hcs' : cs = subtrees.map fun s ↦ pathRow env e paths p s.1 :=
    forall₂_eq_map (hsub.imp fun _ _ hs ↦ hs.1)
  have hsubtree : ∀ s ∈ subtrees, Starts paths (p ++ [s.1]) ∧
      PrefixForest (drawFrame env) paths (p ++ [s.1]) s.2 := fun s hs ↦ by
    obtain ⟨_, _, hv⟩ := exists_of_mem_right hsub hs
    exact ⟨hv.2.1, hv.2.2.1⟩
  refine ⟨_, .intro subtrees ?_ (fun f ↦ ⟨fun hf ↦ ?_, fun hstarts ↦ ?_⟩)
    fun s hs ↦ (hsubtree s hs).2, ?_⟩
  · rw [hcs', ← Function.comp_def, ← List.map_map] at hcs
    exact hcs.of_map
  · obtain ⟨s, hs, rfl⟩ := List.mem_map.mp hf
    exact (hsubtree s hs).1
  · have hv : pathRow env e paths p f ∈ cs := (hmem _).mpr ⟨(h.mem _).mpr ⟨p, f, hstarts, rfl⟩, rfl⟩
    rw [hcs'] at hv
    obtain ⟨s, hs, heq⟩ := List.mem_map.mp hv
    have hid := congrArg (some ∘ StackNode.id) heq
    have hpq := h.inj _ _ (hsubtree s hs).1 hstarts (by
      rw [← pathRow_id, ← pathRow_id]
      exact hid)
    exact List.mem_map.mpr ⟨s, hs, by simpa using hpq⟩
  · rw [List.forall₂_map_right_iff]
    exact hsub.imp fun _ _ hs ↦ hs.2.2.2

theorem Selects.row_mem (h : Selects env e paths sn snd) {p : List Frame} {f : Frame}
    (hstarts : Starts paths (p ++ [f])) : pathRow env e paths p f ∈ sn :=
  (h.mem _).mpr ⟨p, f, hstarts, rfl⟩

theorem Selects.buildDag (h : Selects env e paths sn snd) (depth : ℕ) {p : List Frame} {f : Frame}
    (hstarts : Starts paths (p ++ [f])) {d : ℕ}
    (hd : (nodeMap sn).Depth StackNode.parentId (pathRow env e paths p f).id d)
    (hdepth : sn.length ≤ depth + d) :
    ∃ kids, PrefixForest (drawFrame env) paths (p ++ [f]) kids ∧
      buildDag (nodeMap sn) (dataMap snd) (siblingMap (order.arrange (nodeMap sn).rows)) depth
        (pathRow env e paths p f).id =
          .ok (drawFrame env f (countStarts paths (p ++ [f])) kids) := by
  have hsame := nodeMap_same h.nodup
  have hlen : (nodeMap sn).rows.length = sn.length := hsame.perm.length_eq
  induction depth generalizing p f d with
  | zero =>
    have := hd.lt_length
    omega
  | succ depth ih =>
    have hlookup : (nodeMap sn).lookup (pathRow env e paths p f).id =
        some (pathRow env e paths p f) :=
      Table.lookup_eq_some.mpr ⟨hsame.perm.mem_iff.mpr (h.row_mem hstarts), rfl⟩
    have hcs : (below (order.arrange (nodeMap sn).rows) (pathRow env e paths p f).id).Nodup :=
      ((order.perm _).nodup_iff.mpr (nodeMap sn).nodup_rows).filter _
    have hmem : ∀ v, v ∈ below (order.arrange (nodeMap sn).rows) (pathRow env e paths p f).id ↔
        v ∈ sn ∧ v.parentId = pathId env e none (p ++ [f]) := by
      intro v
      rw [mem_below_nodeMap h.nodup, pathRow_id]
    obtain ⟨ts, hts, hok⟩ := h.forest hstarts hcs hmem (fun v ↦ Sto.buildDag (nodeMap sn)
      (dataMap snd) (siblingMap (order.arrange (nodeMap sn).rows)) depth v.id) fun g hg hv ↦ by
        have hlink : (nodeMap sn).link StackNode.parentId (pathRow env e paths (p ++ [f]) g).id =
            some (some (pathRow env e paths p f).id) := by
          rw [pathRow_id]
          exact Table.link_eq_some.mpr ⟨_, hsame.perm.mem_iff.mpr (h.row_mem hg), rfl, rfl⟩
        exact ih hg (.child hlink hd) (by omega)
    have hbuilt := buildDag_succ hlookup (h.data p f hstarts) (siblingMap_lookup _ _) hok
    refine ⟨ts, hts, hbuilt.trans ?_⟩
    generalize below (order.arrange (nodeMap sn).rows) (pathRow env e paths p f).id = cs at hok
    cases hok <;> rfl

theorem Selects.renderDag (order : Arrangement) (h : Selects env e paths sn snd)
    (hne : paths ≠ []) (pb : Executable) :
    ∃ ts, PrefixForest (drawFrame env) paths [] ts ∧
      renderDag order sn snd pb = .ok (drawRoot pb ts) := by
  have hsame := nodeMap_same h.nodup
  have hstarts : Starts paths [] := by
    obtain ⟨path, hpath⟩ := List.exists_mem_of_ne_nil _ hne
    exact ⟨path, hpath, List.nil_prefix⟩
  have hcs : (sn.filter fun x ↦ x.parentId.isNone).Nodup := (List.Nodup.of_map _ h.nodup).filter _
  have hmem : ∀ v, v ∈ sn.filter (fun x ↦ x.parentId.isNone) ↔
      v ∈ sn ∧ v.parentId = pathId env e none [] := by
    intro v
    rw [List.mem_filter, Option.isNone_iff_eq_none]
    rfl
  obtain ⟨ts, hts, hok⟩ := h.forest hstarts hcs hmem (fun v ↦ Sto.buildDag (nodeMap sn)
    (dataMap snd) (siblingMap (order.arrange (nodeMap sn).rows)) sn.length v.id) fun f hf _ ↦ by
      have hlink : (nodeMap sn).link StackNode.parentId (pathRow env e paths [] f).id = some none :=
        Table.link_eq_some.mpr ⟨_, hsame.perm.mem_iff.mpr (h.row_mem hf), rfl, rfl⟩
      exact h.buildDag sn.length hf (.root hlink) le_rfl
  exact ⟨ts, hts, renderDag_ok.mpr ⟨ts, rfl, hok⟩⟩

theorem sum_values {ts : List D3FlamegraphData} (h : PrefixForest (drawFrame env) paths [] ts) :
    (ts.map D3FlamegraphData.value).sum = (paths.countP fun path ↦ decide (path ≠ []) : ℤ) := by
  obtain ⟨subtrees, hnodup, hcomplete, _⟩ := h
  have hsum := sum_countStarts hnodup fun f ↦ (hcomplete f).mpr
  have hcast : ∀ l : List (Frame × List D3FlamegraphData),
      (l.map fun s ↦ (countStarts paths ([] ++ [s.1]) : ℤ)).sum =
        ((l.map Prod.fst).map fun f ↦ countStarts paths ([] ++ [f])).sum := by
    intro l
    induction l with
    | nil => rfl
    | cons s l ih => simp only [List.map_cons, List.sum_cons, Int.natCast_add, ih]
  rw [List.map_map]
  apply (hcast subtrees).trans
  rw [hsum]
  simp

end Sto
