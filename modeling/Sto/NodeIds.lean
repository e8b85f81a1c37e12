import Sto.Encoding
import Sto.CountNesting

namespace Sto

open Library

variable {env : Externals} {us : List Upload} {u v : Upload}

def nodeStrings (env : Externals) (us : List Upload) : List (List UInt8) :=
  (us.flatMap (Upload.occurrences env)).map stackNodeBytes

theorem occurrence_id {n : StackNode} (h : n ∈ us.flatMap (Upload.occurrences env)) :
    n.id = finalizeId env (stackNodeBytes n) := by
  obtain ⟨u, _, hn⟩ := List.mem_flatMap.mp h
  rw [Upload.occurrences_eq] at hn
  obtain ⟨path, _, hn⟩ := List.mem_flatMap.mp hn
  obtain ⟨p, f, s, _, rfl⟩ := mem_pathNodes.mp hn
  rfl

theorem CollisionFree.nodeIds (h : CollisionFree env (nodeStrings env us)) :
    NodeIdsDistinct env us := by
  intro a ha b hb hid
  rw [occurrence_id ha, occurrence_id hb] at hid
  exact stackNodeBytes_inj.mp (h _ (List.mem_map_of_mem ha) _ (List.mem_map_of_mem hb) hid)

def Upload.BeginsWith (env : Externals) (u : Upload) (p : List Frame) : Prop :=
  ∃ path ∈ u.paths env, p <+: path

theorem Upload.BeginsWith.init {p : List Frame} {f : Frame} (h : u.BeginsWith env (p ++ [f])) :
    u.BeginsWith env p := by
  obtain ⟨path, hpath, hprefix⟩ := h
  exact ⟨path, hpath, (List.prefix_append p [f]).trans hprefix⟩

theorem Upload.BeginsWith.frame_mem {p : List Frame} {f : Frame} (h : u.BeginsWith env p)
    (hf : f ∈ p) : f ∈ (u.paths env).flatten := by
  obtain ⟨path, hpath, hprefix⟩ := h
  exact List.mem_flatten.mpr ⟨path, hpath, hprefix.subset hf⟩

theorem Upload.BeginsWith.node_mem (hu : u ∈ us) {p : List Frame} {f : Frame}
    (h : u.BeginsWith env (p ++ [f])) :
    pathNode env (u.executableId env) (pathId env (u.executableId env) none p) f ∈
      us.flatMap (Upload.occurrences env) := by
  obtain ⟨path, hpath, s, rfl⟩ := h
  refine List.mem_flatMap.mpr ⟨u, hu, ?_⟩
  rw [Upload.occurrences_eq]
  exact List.mem_flatMap.mpr ⟨_, hpath, mem_pathNodes.mpr ⟨p, f, s, by simp, rfl⟩⟩

theorem NodeIdsDistinct.same_path (h : NodeIdsDistinct env us) (hu : u ∈ us) (hv : v ∈ us)
    {p q : List Frame} (hp : u.BeginsWith env p) (hq : v.BeginsWith env q)
    (hid : pathId env (u.executableId env) none p = pathId env (v.executableId env) none q) :
    p.map (fun f ↦ (dataRow env f).id) = q.map (fun f ↦ (dataRow env f).id) ∧
      (p ≠ [] → u.executableId env = v.executableId env) := by
  induction p using List.reverseRecOn generalizing q with
  | nil =>
    cases q using List.reverseRecOn with
    | nil => exact ⟨rfl, fun h ↦ absurd rfl h⟩
    | append_singleton q g =>
      rw [pathId_concat] at hid
      cases hid
  | append_singleton p f ih =>
    cases q using List.reverseRecOn with
    | nil =>
      rw [pathId_concat] at hid
      cases hid
    | append_singleton q g =>
      rw [pathId_concat, pathId_concat, Option.some_inj] at hid
      obtain ⟨hparent, hdata, hexe⟩ := h _ (hp.node_mem hu) _ (hq.node_mem hv) hid
      obtain ⟨hinit, _⟩ := ih hp.init hq.init hparent
      rw [List.map_append, List.map_append, hinit]
      exact ⟨congrArg (_ ++ [·]) hdata, fun _ ↦ hexe⟩

theorem pathId_congr (e : Int64) {p q : List Frame} (parent : Option Int64)
    (h : p.map (fun f ↦ (dataRow env f).id) = q.map fun f ↦ (dataRow env f).id) :
    pathId env e parent p = pathId env e parent q := by
  induction p generalizing q parent with
  | nil =>
    obtain rfl := List.map_eq_nil_iff.mp h.symm
    rfl
  | cons f p ih =>
    cases q with
    | nil => cases h
    | cons g q =>
      obtain ⟨hfg, hrest⟩ := List.cons.inj h
      have hnode : pathNode env e parent f = pathNode env e parent g :=
        congrArg (fun id ↦ idStackNode env ⟨0, parent, id, e, 1⟩) hfg
      change pathId env e (some (pathNode env e parent f).id) p =
        pathId env e (some (pathNode env e parent g).id) q
      rw [hnode]
      exact ih _ hrest

/-- A frame that the loops of `process_and_sink_data` come to: in a sample, at an address of
it, after other frames of the address. The loops take the addresses of a sample from the last
one on. -/
structure Occurrence (u : Upload) where
  before : List (List (List SymbolizedResult))
  inner : List (List SymbolizedResult)
  frames : List SymbolizedResult
  frame : SymbolizedResult
  tail : List SymbolizedResult
  outer : List (List SymbolizedResult)
  after : List (List (List SymbolizedResult))
  position : u.symlists = before ++ (inner ++ (frames ++ frame :: tail) :: outer) :: after

def dataId (env : Externals) (frame : SymbolizedResult) : Int64 :=
  (dataRow env (resolveFrame env frame)).id

namespace Occurrence

/-- The batch cut off at the address of the frame, with `frames` for what is left of it. -/
def cut (x : Occurrence u) (frames : List SymbolizedResult) : Upload :=
  { u with symlists := x.before ++ [frames :: x.outer] }

/-- The frames of the sample from the outermost one down to this one. -/
def callPath (x : Occurrence u) : List SymbolizedResult :=
  x.outer.reverse.flatten ++ x.frames ++ [x.frame]

/-- The row of the payload that the frame is counted in. Its id is the one whose count goes up
when `process_and_sink_data` is given the batch up to this frame and not only up to the frame
before. -/
structure CountedIn (env : Externals) (x : Occurrence u) (n : StackNode) : Prop where
  stored : n ∈ (u.payload env).stackNodes
  counted : ∀ k,
    carried StackNode.id StackNode.sampleCount
        ((x.cut (x.frames ++ [x.frame])).payload env).stackNodes k =
      carried StackNode.id StackNode.sampleCount ((x.cut x.frames).payload env).stackNodes k +
        if k = n.id then 1 else 0
  frame : n.stackNodeDataId = dataId env x.frame
  executable : n.executableId = u.executableId env

def node (env : Externals) (x : Occurrence u) : StackNode :=
  pathNode env (u.executableId env)
    (pathId env (u.executableId env) none
      ((x.outer.reverse.flatten ++ x.frames).map (resolveFrame env)))
    (resolveFrame env x.frame)

variable {x : Occurrence u} {y : Occurrence v} {m n : StackNode}

theorem pathId_callPath (x : Occurrence u) :
    pathId env (u.executableId env) none (x.callPath.map (resolveFrame env)) =
      some (x.node env).id := by
  rw [callPath, List.map_append, List.map_singleton, pathId_concat]
  rfl

theorem beginsWith (x : Occurrence u) : u.BeginsWith env (x.callPath.map (resolveFrame env)) := by
  refine ⟨resolvedPath env (x.inner ++ (x.frames ++ x.frame :: x.tail) :: x.outer), ?_, ?_⟩
  · rw [Upload.paths, x.position]
    exact List.mem_map_of_mem (List.mem_append_right _ List.mem_cons_self)
  · refine List.IsPrefix.map _ ⟨x.tail ++ x.inner.reverse.flatten, ?_⟩
    simp [callPath]

theorem node_mem (hu : u ∈ us) (x : Occurrence u) :
    x.node env ∈ us.flatMap (Upload.occurrences env) := by
  have hbegins : u.BeginsWith env (x.callPath.map (resolveFrame env)) := x.beginsWith
  rw [callPath, List.map_append, List.map_singleton] at hbegins
  exact hbegins.node_mem hu

theorem occurrences_cut (x : Occurrence u) (frames : List SymbolizedResult) :
    (x.cut frames).occurrences env = batchNodes env (u.executableId env) x.before ++
      pathNodes env (u.executableId env) none
        ((x.outer.reverse.flatten ++ frames).map (resolveFrame env)) := by
  have hpath : resolvedPath env (frames :: x.outer) =
      (x.outer.reverse.flatten ++ frames).map (resolveFrame env) := by
    rw [resolvedPath, List.reverse_cons, List.flatten_append, List.flatten_singleton]
  rw [Upload.occurrences, cut, batchNodes, List.flatMap_append, List.flatMap_singleton, hpath]
  rfl

theorem count_cut (x : Occurrence u) (k : Int64) :
    carried StackNode.id StackNode.sampleCount
        ((x.cut (x.frames ++ [x.frame])).payload env).stackNodes k =
      carried StackNode.id StackNode.sampleCount ((x.cut x.frames).payload env).stackNodes k +
        if k = (x.node env).id then 1 else 0 := by
  have hlast : (x.cut (x.frames ++ [x.frame])).occurrences env =
      (x.cut x.frames).occurrences env ++ [x.node env] := by
    rw [occurrences_cut, occurrences_cut, ← List.append_assoc, List.map_append, pathNodes_append,
      ← List.append_assoc]
    rfl
  rw [carried_nodes, carried_nodes, hlast, List.filter_append, List.map_append, List.sum_append]
  apply congrArg
  have hone : (x.node env).sampleCount = 1 := rfl
  by_cases hk : k = (x.node env).id
  · simp [hk, hone]
  · simp [hk, Ne.symm hk]

theorem CountedIn.id_eq (h : x.CountedIn env n) : n.id = (x.node env).id := by
  have hcount := h.counted n.id
  rw [count_cut, if_pos rfl] at hcount
  by_contra hne
  rw [if_neg hne] at hcount
  omega

theorem exists_countedIn (h : NodeIdsDistinct env us) (hu : u ∈ us) (x : Occurrence u) :
    ∃ n, x.CountedIn env n := by
  have hnode : x.node env ∈ u.occurrences env := by
    have hmem : x.node env ∈ [u].flatMap (Upload.occurrences env) :=
      x.node_mem (List.mem_singleton_self u)
    rwa [List.flatMap_singleton] at hmem
  obtain ⟨n, hn, hid⟩ := List.mem_map.mp (Upload.mem_payload_node_ids.mpr ⟨_, hnode, rfl⟩)
  obtain ⟨o, ho, hoid, _, hodata, hoexe⟩ := Upload.payload_node_source hn
  obtain ⟨_, hdata, hexe⟩ := h o (List.mem_flatMap.mpr ⟨u, hu, ho⟩) _ (x.node_mem hu)
    (hoid.trans hid)
  exact ⟨n, hn, fun k ↦ hid ▸ x.count_cut k, hodata.symm.trans hdata, hoexe.symm.trans hexe⟩

end Occurrence

/-- A node id stands for an executable and the frames from the outermost one down: each frame
of each sample of each batch is counted in a row of its payload, and the rows of two frames
have one id just when the frames are on the same call path of the same executable. -/
theorem node_id_is_the_call_path (h : CollisionFree env (nodeStrings env us)) (hu : u ∈ us)
    (hv : v ∈ us) (x : Occurrence u) (y : Occurrence v) :
    (∃ m, x.CountedIn env m) ∧ (∃ n, y.CountedIn env n) ∧
      ∀ m n, x.CountedIn env m → y.CountedIn env n →
        (m.id = n.id ↔ u.executableId env = v.executableId env ∧
          x.callPath.map (dataId env) = y.callPath.map (dataId env)) := by
  refine ⟨x.exists_countedIn h.nodeIds hu, y.exists_countedIn h.nodeIds hv, ?_⟩
  intro m n hm hn
  have hmap : ∀ frames : List SymbolizedResult, frames.map (dataId env) =
      (frames.map (resolveFrame env)).map fun f ↦ (dataRow env f).id := by
    intro frames
    rw [List.map_map]
    rfl
  rw [hm.id_eq, hn.id_eq, ← Option.some_inj, ← x.pathId_callPath, ← y.pathId_callPath, hmap, hmap]
  constructor
  · intro hid
    obtain ⟨hframes, hexe⟩ := h.nodeIds.same_path hu hv x.beginsWith y.beginsWith hid
    exact ⟨hexe (by simp [Occurrence.callPath]), hframes⟩
  · intro hpaths
    rw [hpaths.1]
    exact pathId_congr _ none hpaths.2

theorem demo_nodeStrings :
    CollisionFree demoExternals (nodeStrings demoExternals [demoUpload, demoCall .asIs]) := by
  decide +kernel

def demoWork : Occurrence (demoCall .asIs) where
  before := []
  inner := []
  frames := []
  frame := ⟨"work", "/src/main.c", 9⟩
  tail := []
  outer := [[⟨"main", "/src/main.c", 3⟩]]
  after := []
  position := rfl

def demoMain : Occurrence demoUpload where
  before := []
  inner := []
  frames := []
  frame := ⟨"main", "/src/main.c", 3⟩
  tail := []
  outer := []
  after := []
  position := rfl

theorem node_id_is_the_call_path_demo :
    (∃ m, demoMain.CountedIn demoExternals m) ∧ (∃ n, demoWork.CountedIn demoExternals n) ∧
      ∀ m n, demoMain.CountedIn demoExternals m → demoWork.CountedIn demoExternals n →
        (m.id = n.id ↔
          demoUpload.executableId demoExternals = (demoCall .asIs).executableId demoExternals ∧
            demoMain.callPath.map (dataId demoExternals) =
              demoWork.callPath.map (dataId demoExternals)) := by
  apply node_id_is_the_call_path demo_nodeStrings <;> simp

end Sto
