import Sto.NodeIds
import Sto.ReadBack
import Sto.SerialIngest

namespace Sto

open Library

variable {env : Externals} {us : List Upload} {e : Int64} {db : Db}

def FramesDistinct (env : Externals) (us : List Upload) : Prop :=
  ∀ f ∈ us.flatMap fun u ↦ (u.paths env).flatten, ∀ g ∈ us.flatMap fun u ↦ (u.paths env).flatten,
    (dataRow env f).id = (dataRow env g).id → f = g

instance (us : List Upload) : Decidable (FramesDistinct env us) :=
  inferInstanceAs (Decidable (∀ f ∈ us.flatMap fun u ↦ (u.paths env).flatten,
    ∀ g ∈ us.flatMap fun u ↦ (u.paths env).flatten,
      (dataRow env f).id = (dataRow env g).id → f = g))

theorem mem_samplesOf {path : List Frame} :
    path ∈ samplesOf env us e ↔ ∃ u ∈ us, u.executableId env = e ∧ path ∈ u.paths env := by
  simp only [samplesOf, List.mem_flatMap, List.mem_filter, decide_eq_true_eq, and_assoc]

theorem mem_occurrences_iff {n : StackNode} :
    (n ∈ us.flatMap (Upload.occurrences env) ∧ n.executableId = e) ↔
      ∃ p f, Starts (samplesOf env us e) (p ++ [f]) ∧
        n = pathNode env e (pathId env e none p) f := by
  simp only [starts_iff_append, mem_samplesOf]
  constructor
  · intro hx
    obtain ⟨hn, rfl⟩ := hx
    obtain ⟨u, hu, hocc⟩ := List.mem_flatMap.mp hn
    have hexe := (Upload.occurrence_refs hocc).2.2.1
    rw [Upload.occurrences_eq] at hocc
    obtain ⟨path, hpath, hnode⟩ := List.mem_flatMap.mp hocc
    obtain ⟨p, f, s, rfl, hrow⟩ := mem_pathNodes.mp hnode
    rw [← hexe] at hrow
    exact ⟨p, f, ⟨_, ⟨u, hu, hexe.symm, hpath⟩, s, rfl⟩, hrow⟩
  · intro hx
    obtain ⟨p, f, ⟨_, ⟨u, hu, rfl, hpath⟩, s, rfl⟩, rfl⟩ := hx
    refine ⟨List.mem_flatMap.mpr ⟨u, hu, ?_⟩, rfl⟩
    rw [Upload.occurrences_eq]
    exact List.mem_flatMap.mpr ⟨_, hpath, mem_pathNodes.mpr ⟨p, f, s, rfl, rfl⟩⟩

theorem starts_beginsWith {p : List Frame} (h : Starts (samplesOf env us e) p) :
    ∃ u ∈ us, u.executableId env = e ∧ u.BeginsWith env p := by
  obtain ⟨path, hpath, hprefix⟩ := h
  obtain ⟨u, hu, hexe, hpath⟩ := mem_samplesOf.mp hpath
  exact ⟨u, hu, hexe, path, hpath, hprefix⟩

theorem frame_mem {p : List Frame} {f : Frame} (h : Starts (samplesOf env us e) (p ++ [f])) :
    f ∈ us.flatMap fun u ↦ (u.paths env).flatten := by
  obtain ⟨u, hu, _, hbegins⟩ := starts_beginsWith h
  exact List.mem_flatMap.mpr ⟨u, hu, hbegins.frame_mem (by simp)⟩

theorem starts_node_mem {p : List Frame} {f : Frame} (h : Starts (samplesOf env us e) (p ++ [f])) :
    pathNode env e (pathId env e none p) f ∈ us.flatMap (Upload.occurrences env) :=
  (mem_occurrences_iff.mpr ⟨p, f, h, rfl⟩).1

theorem FramesDistinct.paths_eq (h : FramesDistinct env us) {p q : List Frame}
    (hp : ∀ f ∈ p, f ∈ us.flatMap fun u ↦ (u.paths env).flatten)
    (hq : ∀ f ∈ q, f ∈ us.flatMap fun u ↦ (u.paths env).flatten)
    (hid : p.map (fun f ↦ (dataRow env f).id) = q.map fun f ↦ (dataRow env f).id) : p = q := by
  induction p generalizing q with
  | nil => exact (List.map_eq_nil_iff.mp hid.symm).symm
  | cons f p ih =>
    cases q with
    | nil => cases hid
    | cons g q =>
      obtain ⟨hfg, hrest⟩ := List.cons.inj hid
      rw [List.forall_mem_cons] at hp hq
      rw [h f hp.1 g hq.1 hfg, ih hp.2 hq.2 hrest]

theorem pathId_inj (hframes : FramesDistinct env us) (hids : NodeIdsDistinct env us)
    {p q : List Frame} (hp : Starts (samplesOf env us e) p) (hq : Starts (samplesOf env us e) q)
    (h : pathId env e none p = pathId env e none q) : p = q := by
  obtain ⟨u, hu, hexe, hpu⟩ := starts_beginsWith hp
  obtain ⟨v, hv, hexe', hqv⟩ := starts_beginsWith hq
  have hsame : pathId env (u.executableId env) none p = pathId env (v.executableId env) none q := by
    rw [hexe, hexe', h]
  exact hframes.paths_eq (fun _ hf ↦ List.mem_flatMap.mpr ⟨u, hu, hpu.frame_mem hf⟩)
    (fun _ hf ↦ List.mem_flatMap.mpr ⟨v, hv, hqv.frame_mem hf⟩)
    (hids.same_path hu hv hpu hqv hsame).1

theorem countP_pathNodes (hframes : FramesDistinct env us) (hids : NodeIdsDistinct env us)
    {t : List Frame} (ht : Starts (samplesOf env us e) t) {k : Int64}
    (hk : pathId env e none t = some k) (q path : List Frame)
    (hfull : q ++ path ∈ samplesOf env us e) :
    ((pathNodes env e (pathId env e none q) path).countP fun n ↦ n.id = k) =
      if q.length < t.length ∧ t <+: q ++ path then 1 else 0 := by
  induction path generalizing q with
  | nil =>
    rw [if_neg]
    · rfl
    · intro hx
      obtain ⟨hlt, hprefix⟩ := hx
      have := hprefix.length_le
      simp at this
      omega
  | cons f path ih =>
    have hfull' : (q ++ [f]) ++ path ∈ samplesOf env us e := by simpa using hfull
    have hstarts : Starts (samplesOf env us e) (q ++ [f]) := ⟨_, hfull', List.prefix_append _ _⟩
    have hrest := ih (q ++ [f]) hfull'
    have hiff : (pathNode env e (pathId env e none q) f).id = k ↔ q ++ [f] = t := by
      rw [← Option.some_inj, ← hk, ← pathId_concat]
      exact ⟨pathId_inj hframes hids hstarts ht, fun h ↦ h ▸ rfl⟩
    rw [pathId_concat, List.append_assoc, List.singleton_append] at hrest
    rw [pathNodes, List.countP_cons, hrest]
    simp only [decide_eq_true_eq, hiff, List.length_append, List.length_singleton]
    by_cases heq : q ++ [f] = t
    · subst heq
      simp
    · have hlonger : q.length < t.length ∧ t <+: q ++ f :: path ↔
          q.length + 1 < t.length ∧ t <+: q ++ f :: path := by
        refine and_congr_left fun hprefix ↦ ⟨fun hlt ↦ ?_, fun hlt ↦ by omega⟩
        by_contra hle
        refine heq ((List.prefix_of_prefix_length_le ⟨path, by simp⟩ hprefix ?_).eq_of_length ?_) <;>
          simp <;> omega
      simp only [heq, hlonger, if_false, add_zero]

theorem countP_paths (hframes : FramesDistinct env us) (hids : NodeIdsDistinct env us)
    {t : List Frame} (ht : Starts (samplesOf env us e) t) {k : Int64}
    (hk : pathId env e none t = some k) {paths : List (List Frame)}
    (hpaths : ∀ path ∈ paths, path ∈ samplesOf env us e) :
    ((paths.flatMap (pathNodes env e none)).countP fun n ↦ n.id = k) =
      countStarts paths t := by
  have hpos : 0 < t.length := by
    cases t with
    | nil => cases hk
    | cons f t => simp
  induction paths with
  | nil => rfl
  | cons path paths ih =>
    have hpath := countP_pathNodes hframes hids ht hk [] path (hpaths path (by simp))
    rw [List.nil_append] at hpath
    rw [List.flatMap_cons, List.countP_append, countStarts_cons,
      ih fun q hq ↦ hpaths q (by simp [hq]), add_comm]
    exact congrArg _ (hpath.trans (by simp [hpos]))

theorem samplesOf_cons (u : Upload) (us : List Upload) (e : Int64) :
    samplesOf env (u :: us) e =
      (if u.executableId env = e then u.paths env else []) ++ samplesOf env us e := by
  unfold samplesOf
  by_cases h : u.executableId env = e <;> simp [h]

theorem countP_occurrences (hframes : FramesDistinct env us) (hids : NodeIdsDistinct env us)
    {p : List Frame} {f : Frame} (ht : Starts (samplesOf env us e) (p ++ [f])) {vs : List Upload}
    (hvs : ∀ u ∈ vs, u ∈ us) :
    ((vs.flatMap (Upload.occurrences env)).countP fun n ↦
        n.id = (pathNode env e (pathId env e none p) f).id) =
      countStarts (samplesOf env vs e) (p ++ [f]) := by
  induction vs with
  | nil => rfl
  | cons u vs ih =>
    rw [List.flatMap_cons, List.countP_append, samplesOf_cons, countStarts_append,
      ih fun v hv ↦ hvs v (by simp [hv])]
    apply congrArg (· + _)
    by_cases hexe : u.executableId env = e
    · rw [if_pos hexe, Upload.occurrences_eq, hexe]
      exact countP_paths hframes hids ht (pathId_concat e p f) fun path hpath ↦
        mem_samplesOf.mpr ⟨u, hvs u (by simp), hexe, hpath⟩
    · rw [if_neg hexe]
      refine List.countP_eq_zero.mpr fun n hn hid ↦ hexe ?_
      have hmem : n ∈ us.flatMap (Upload.occurrences env) :=
        List.mem_flatMap.mpr ⟨u, hvs u (by simp), hn⟩
      rw [← (Upload.occurrence_refs hn).2.2.1]
      exact (hids n hmem _ (starts_node_mem ht) (of_decide_eq_true hid)).2.2

theorem count_congr {a b : StackNode} (hid : a.id = b.id) (hrefs : a.parentId = b.parentId ∧
    a.stackNodeDataId = b.stackNodeDataId ∧ a.executableId = b.executableId) (c : ℤ) :
    ({ a with sampleCount := c } : StackNode) = { b with sampleCount := c } := by
  rw [hid, hrefs.1, hrefs.2.1, hrefs.2.2]

theorem Ingested.frame_of_row (h : Ingested env us db) {d : StackNodeData}
    (hd : d ∈ db.stackNodeData.rows) :
    ∃ f ∈ us.flatMap fun u ↦ (u.paths env).flatten, d = dataRow env f := by
  obtain ⟨u, hu, hd⟩ := h.data_rows d hd
  rw [Upload.frameRows_eq] at hd
  obtain ⟨f, hf, rfl⟩ := List.mem_map.mp hd
  exact ⟨f, List.mem_flatMap.mpr ⟨u, hu, hf⟩, rfl⟩

def countedRow (env : Externals) (us : List Upload) (o : StackNode) : StackNode :=
  { o with sampleCount :=
      ((us.flatMap (Upload.occurrences env)).countP fun x ↦ decide (x.id = o.id) : ℕ) }

theorem Ingested.mem_rows (h : Ingested env us db) (hids : NodeIdsDistinct env us)
    (hcounted : Counted env us e db) {n : StackNode} :
    n ∈ db.stackNode.rows ∧ n.executableId = e ↔
      ∃ o ∈ us.flatMap (Upload.occurrences env), o.executableId = e ∧
        n = countedRow env us o := by
  have hrow : ∀ o ∈ us.flatMap (Upload.occurrences env), o.executableId = e →
      ∀ m ∈ db.stackNode.rows, o.id = m.id → m = countedRow env us o := by
    intro o ho hexe m hm hid
    obtain ⟨o', ho', hid', hrefs⟩ := h.node_rows m hm
    have hcount := hcounted o ho hexe
    rw [hid, Table.weight_of_mem _ hm, ← hid, nodeTotal_eq_count] at hcount
    have hsame := hids o ho o' ho' (hid.trans hid'.symm)
    simp only [Prod.mk.injEq] at hrefs
    rw [countedRow, ← hcount]
    exact count_congr hid.symm ⟨hrefs.1.symm.trans hsame.1.symm,
      hrefs.2.1.symm.trans hsame.2.1.symm, hrefs.2.2.symm.trans hsame.2.2.symm⟩ m.sampleCount
  constructor
  · intro hx
    obtain ⟨hn, rfl⟩ := hx
    obtain ⟨o, ho, hid, hrefs⟩ := h.node_rows n hn
    simp only [Prod.mk.injEq] at hrefs
    exact ⟨o, ho, hrefs.2.2, hrow o ho hrefs.2.2 n hn hid⟩
  · intro hx
    obtain ⟨o, ho, hexe, rfl⟩ := hx
    have hhas : db.stackNode.Has o.id := by
      by_contra hnone
      have hcount := hcounted o ho hexe
      rw [Table.weight, Table.lookup_eq_none.mpr hnone, nodeTotal_eq_count] at hcount
      have hpos : 0 < (us.flatMap (Upload.occurrences env)).countP fun x ↦ x.id = o.id :=
        List.countP_pos_iff.mpr ⟨o, ho, by simp⟩
      change (0 : ℤ) = _ at hcount
      omega
    obtain ⟨m, hm, hmid⟩ := Table.has_iff.mp hhas
    have hm' := hrow o ho hexe m hm hmid.symm
    exact ⟨hm' ▸ hm, hexe⟩

theorem Ingested.selects (h : Ingested env us db) (hfk : db.ForeignKeys)
    (hframes : FramesDistinct env us) (hids : NodeIdsDistinct env us)
    (hcounted : Counted env us e db) (rows : Arrangement) :
    Selects env e (samplesOf env us e) (selectStackNode rows e db)
      (selectStackNodeData rows e db) := by
  have hrow : ∀ p f, Starts (samplesOf env us e) (p ++ [f]) →
      countedRow env us (pathNode env e (pathId env e none p) f) =
        pathRow env e (samplesOf env us e) p f := by
    intro p f hstarts
    rw [countedRow, countP_occurrences hframes hids hstarts fun _ hu ↦ hu]
    rfl
  have hmem : ∀ n, n ∈ selectStackNode rows e db ↔ ∃ p f,
      Starts (samplesOf env us e) (p ++ [f]) ∧ n = pathRow env e (samplesOf env us e) p f := by
    intro n
    rw [mem_selectStackNode, h.mem_rows hids hcounted]
    constructor
    · intro hx
      obtain ⟨o, ho, hexe, rfl⟩ := hx
      obtain ⟨p, f, hstarts, rfl⟩ := mem_occurrences_iff.mp ⟨ho, hexe⟩
      exact ⟨p, f, hstarts, hrow p f hstarts⟩
    · intro hx
      obtain ⟨p, f, hstarts, rfl⟩ := hx
      exact ⟨_, starts_node_mem hstarts, rfl, (hrow p f hstarts).symm⟩
  refine ⟨selectStackNode_nodup, hmem, fun p f hstarts ↦ ?_, fun p q ↦ pathId_inj hframes hids⟩
  obtain ⟨d, hd, hdid⟩ := (Db.Grows.refl db).selects_data hfk ((hmem _).mpr ⟨p, f, hstarts, rfl⟩)
  have hhas : (dataMap (selectStackNodeData rows e db)).Has (dataRow env f).id :=
    Table.has_upsertAll.mpr (.inr ⟨d, hd, hdid⟩)
  obtain ⟨d', hd'⟩ := Table.has_iff_lookup.mp hhas
  obtain ⟨g, hg, rfl⟩ :=
    h.frame_of_row (mem_selectStackNodeData.mp (Table.mem_of_lookup_last hd')).1
  rw [hd', hframes g hg f (frame_mem hstarts) (Table.lookup_key hd')]

theorem Ingested.clientRows (h : Ingested env us db) (hreg : db.Regular env) (rows : Arrangement)
    (e : Int64) : ClientRows env e (selectStackNode rows e db) (selectStackNodeData rows e db) where
  nodup := selectStackNode_nodup
  ids v hv := by
    obtain ⟨o, ho, hid, hrefs⟩ := h.node_rows v (mem_selectStackNode.mp hv).1
    obtain ⟨p, f, _, hnode⟩ := mem_occurrences_iff.mp ⟨ho, rfl⟩
    have hself : o.id = (idStackNode env o).id := by
      rw [hnode]
      rfl
    simp only [Prod.mk.injEq] at hrefs
    rw [← hid, hself, idStackNode, idStackNode, stackNodeBytes, stackNodeBytes, hrefs.1,
      hrefs.2.1, hrefs.2.2]
  executable v hv := (mem_selectStackNode.mp hv).2
  frames d hd := hreg.frames d (mem_selectStackNodeData.mp hd).1

theorem Ingested.counted_of_tree (h : Ingested env us db) (hreg : db.Regular env)
    (hframes : FramesDistinct env us) (hids : NodeIdsDistinct env us) {rows iter : Arrangement}
    {pb : Executable} {t : D3FlamegraphData} {ts : List D3FlamegraphData}
    (hrender : renderDag iter (selectStackNode rows e db) (selectStackNodeData rows e db) pb =
      .ok t) (hchildren : t.children = some ts)
    (hforest : PrefixForest (drawFrame env) (samplesOf env us e) [] ts) :
    Counted env us e db := by
  intro n hn hexe
  obtain ⟨p, f, hstarts, rfl⟩ := mem_occurrences_iff.mp ⟨hn, hexe⟩
  obtain ⟨ts', rfl, hts⟩ := renderDag_ok.mp hrender
  obtain rfl : ts' = ts := Option.some_inj.mp hchildren
  have hroots : ∀ w ∈ (selectStackNode rows e db).filter fun x ↦ x.parentId.isNone,
      w ∈ selectStackNode rows e db ∧ w.parentId = pathId env e none [] := by
    intro w hw
    obtain ⟨hmem, hroot⟩ := List.mem_filter.mp hw
    exact ⟨hmem, Option.isNone_iff_eq_none.mp hroot⟩
  obtain ⟨v, hv, hid, hcount⟩ := (h.clientRows hreg rows e).read p hforest hroots
    (hts.imp fun _ _ hx ↦ ⟨_, hx⟩) hstarts
  rw [List.nil_append, pathId_concat, Option.some_inj] at hid
  rw [Table.weight, Table.lookup_eq_some.mpr ⟨(mem_selectStackNode.mp hv).1, hid⟩,
    nodeTotal_eq_count, countP_occurrences hframes hids hstarts fun _ hu ↦ hu]
  exact hcount

end Sto
