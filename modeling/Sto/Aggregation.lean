import Sto.Client
import Sto.Server

namespace Sto

open Library

structure Frame where
  symbol : String
  file : Option String
  lineNumber : Option Int32
  deriving DecidableEq, Repr

variable (env : Externals)

def resolveFrame (frame : SymbolizedResult) : Frame where
  symbol := cachedDemangle env frame.symbol
  file := frameFile frame
  lineNumber := frameLine frame

/-- The frames of a sample from the outermost one in. Addresses that resolve to nothing
leave no trace. -/
def resolvedPath (symlist : List (List SymbolizedResult)) : List Frame :=
  symlist.reverse.flatten.map (resolveFrame env)

def dataRow (f : Frame) : StackNodeData := idData env ⟨0, f.symbol, f.file, f.lineNumber⟩

def pathNode (executableId : Int64) (parent : Option Int64) (f : Frame) : StackNode :=
  idStackNode env ⟨0, parent, (dataRow env f).id, executableId, 1⟩

def pathNodes (executableId : Int64) : Option Int64 → List Frame → List StackNode
  | _, [] => []
  | parent, f :: path =>
    pathNode env executableId parent f ::
      pathNodes executableId (some (pathNode env executableId parent f).id) path

def pathId (executableId : Int64) (parent : Option Int64) (path : List Frame) : Option Int64 :=
  path.foldl (fun p f ↦ some (pathNode env executableId p f).id) parent

@[simp] theorem pathNode_parent (e : Int64) (p : Option Int64) (f : Frame) :
    (pathNode env e p f).parentId = p := rfl

theorem pathNodes_append (e : Int64) (p : Option Int64) (a b : List Frame) :
    pathNodes env e p (a ++ b) = pathNodes env e p a ++ pathNodes env e (pathId env e p a) b := by
  induction a generalizing p with
  | nil => rfl
  | cons f a ih => exact congrArg (pathNode env e p f :: ·) (ih _)

theorem pathId_append (e : Int64) (p : Option Int64) (a b : List Frame) :
    pathId env e p (a ++ b) = pathId env e (pathId env e p a) b := List.foldl_append

variable {env} in
theorem pathId_concat (e : Int64) (p : List Frame) (f : Frame) :
    pathId env e none (p ++ [f]) = some (pathNode env e (pathId env e none p) f).id := by
  rw [pathId_append]
  rfl

theorem count_of_mem_pathNodes {e : Int64} {p : Option Int64} {path : List Frame} {n : StackNode}
    (h : n ∈ pathNodes env e p path) : n.sampleCount = 1 ∧ n.executableId = e := by
  induction path generalizing p with
  | nil => cases h
  | cons f path ih =>
    rcases List.mem_cons.mp h with rfl | h
    · exact ⟨rfl, rfl⟩
    · exact ih h

variable {env} in
theorem mem_pathNodes {e : Int64} {q : Option Int64} {path : List Frame} {n : StackNode} :
    n ∈ pathNodes env e q path ↔
      ∃ p f s, path = p ++ f :: s ∧ n = pathNode env e (pathId env e q p) f := by
  induction path generalizing q with
  | nil => simp [pathNodes]
  | cons g path ih =>
    rw [pathNodes, List.mem_cons, ih]
    constructor
    · intro hx
      obtain rfl | ⟨p, f, s, rfl, rfl⟩ := hx
      · exact ⟨[], g, path, rfl, rfl⟩
      · exact ⟨g :: p, f, s, rfl, rfl⟩
    · intro hx
      obtain ⟨p, f, s, hpath, rfl⟩ := hx
      cases p with
      | nil =>
        obtain ⟨rfl, rfl⟩ := List.cons.inj hpath
        exact .inl rfl
      | cons g' p =>
        obtain ⟨rfl, rfl⟩ := List.cons.inj hpath
        exact .inr ⟨p, f, s, rfl, rfl⟩

theorem sinkFrame_eq (executable : Executable) (s : Maps × Option Int64)
    (frame : SymbolizedResult) :
    sinkFrame env executable s frame =
      ({ s.1 with
          stackNodeDataMap :=
            s.1.stackNodeDataMap.upsert .first (dataRow env (resolveFrame env frame))
          stackNodeMap := s.1.stackNodeMap.upsert countOne
            (pathNode env executable.id s.2 (resolveFrame env frame)) },
        some (pathNode env executable.id s.2 (resolveFrame env frame)).id) := by
  have hdata : dataRow env (resolveFrame env frame) =
      idData env ⟨0, cachedDemangle env frame.symbol, frameFile frame, frameLine frame⟩ := by
    rw [dataRow, resolveFrame]
  unfold pathNode
  rw [hdata]
  rfl

theorem sinkFrames_eq (executable : Executable) (s : Maps × Option Int64)
    (stack : List SymbolizedResult) :
    stack.foldl (sinkFrame env executable) s =
      ({ s.1 with
          stackNodeDataMap := s.1.stackNodeDataMap.upsertAll .first
            ((stack.map (resolveFrame env)).map (dataRow env))
          stackNodeMap := s.1.stackNodeMap.upsertAll countOne
            (pathNodes env executable.id s.2 (stack.map (resolveFrame env))) },
        pathId env executable.id s.2 (stack.map (resolveFrame env))) := by
  induction stack generalizing s with
  | nil => rfl
  | cons frame stack ih =>
    rw [List.foldl_cons, ih, sinkFrame_eq]
    rfl

def hits (executable : Executable) (addrs : List (List SymbolizedResult)) : Executable :=
  { executable with
    sampleCount := executable.sampleCount + addrs.length
    rawDataSize := executable.rawDataSize + (addrs.map fun s ↦ (env.stackSize s : ℤ)).sum }

def hitsMap (executable : Executable) (addrs : List (List SymbolizedResult)) :
    Table Executable.id :=
  if addrs = [] then .empty else ⟨[hits env executable addrs], List.nodup_singleton _⟩

theorem hitsMap_concat (executable : Executable) (addrs : List (List SymbolizedResult))
    (stack : List SymbolizedResult) :
    ((hitsMap env executable addrs).upsert .first executable).modify executable.id
      (fun e ↦ { e with
        sampleCount := e.sampleCount + 1
        rawDataSize := e.rawDataSize + env.stackSize stack }) (fun _ ↦ rfl) =
      hitsMap env executable (addrs ++ [stack]) := by
  apply Table.ext
  by_cases h : addrs = []
  · simp [hitsMap, hits, h, Table.modify, Table.upsert, Table.Has, Table.empty]
  · have hid : (hits env executable addrs).id = executable.id := rfl
    simp [hitsMap, h, Table.modify, Table.upsert, Table.Has, hid, Merge.first]
    simp [hits, add_assoc]

theorem sinkStack_eq (executable : Executable) (m : Maps) (p : Option Int64)
    (addrs : List (List SymbolizedResult)) (hm : m.executableMap = hitsMap env executable addrs)
    (stack : List SymbolizedResult) :
    sinkStack env executable (m, p) stack =
      ({ stackNodeDataMap := m.stackNodeDataMap.upsertAll .first
          ((stack.map (resolveFrame env)).map (dataRow env))
         stackNodeMap := m.stackNodeMap.upsertAll countOne
          (pathNodes env executable.id p (stack.map (resolveFrame env)))
         executableMap := hitsMap env executable (addrs ++ [stack]) },
        pathId env executable.id p (stack.map (resolveFrame env))) := by
  unfold sinkStack
  rw [sinkFrames_eq, hm]
  dsimp only
  rw [hitsMap_concat]

theorem sinkStacks_eq (executable : Executable) (m : Maps) (p : Option Int64)
    (before addrs : List (List SymbolizedResult))
    (hm : m.executableMap = hitsMap env executable before) :
    addrs.foldl (sinkStack env executable) (m, p) =
      ({ stackNodeDataMap := m.stackNodeDataMap.upsertAll .first
          ((addrs.flatten.map (resolveFrame env)).map (dataRow env))
         stackNodeMap := m.stackNodeMap.upsertAll countOne
          (pathNodes env executable.id p (addrs.flatten.map (resolveFrame env)))
         executableMap := hitsMap env executable (before ++ addrs) },
        pathId env executable.id p (addrs.flatten.map (resolveFrame env))) := by
  induction addrs generalizing m p before with
  | nil => rw [List.append_nil, ← hm]; rfl
  | cons stack addrs ih =>
    rw [List.foldl_cons, sinkStack_eq env executable m p before hm stack, ih _ _ _ rfl]
    simp only [List.flatten_cons, List.map_append, Table.upsertAll_append, pathNodes_append,
      pathId_append, List.append_assoc, List.singleton_append]

/-- The rows that a batch is gathered from: one per frame occurrence. -/
def batchNodes (executableId : Int64) (symlists : List (List (List SymbolizedResult))) :
    List StackNode :=
  symlists.flatMap fun symlist ↦ pathNodes env executableId none (resolvedPath env symlist)

def batchDatas (symlists : List (List (List SymbolizedResult))) : List StackNodeData :=
  symlists.flatMap fun symlist ↦ (resolvedPath env symlist).map (dataRow env)

def batchStacks (symlists : List (List (List SymbolizedResult))) : List (List SymbolizedResult) :=
  symlists.flatMap List.reverse

/-- The nested loops gather, in order, every frame occurrence of the batch. -/
theorem sinkSymlists_eq (executable : Executable) (m : Maps)
    (before : List (List SymbolizedResult)) (hm : m.executableMap = hitsMap env executable before)
    (symlists : List (List (List SymbolizedResult))) :
    symlists.foldl (sinkSymlist env executable) m =
      { stackNodeDataMap := m.stackNodeDataMap.upsertAll .first (batchDatas env symlists)
        stackNodeMap := m.stackNodeMap.upsertAll countOne (batchNodes env executable.id symlists)
        executableMap := hitsMap env executable (before ++ batchStacks symlists) } := by
  induction symlists generalizing m before with
  | nil => simp [batchDatas, batchNodes, batchStacks, Table.upsertAll, ← hm]
  | cons symlist symlists ih =>
    rw [List.foldl_cons, sinkSymlist, sinkStacks_eq env executable m none before _ hm, ih _ _ rfl]
    simp only [batchDatas, batchNodes, batchStacks, resolvedPath, List.flatMap_cons,
      Table.upsertAll_append, List.append_assoc]

theorem batchNodes_count {e : Int64} {symlists : List (List (List SymbolizedResult))}
    {n : StackNode} (h : n ∈ batchNodes env e symlists) : n.sampleCount = 1 ∧ n.executableId = e := by
  obtain ⟨symlist, _, hn⟩ := List.mem_flatMap.mp h
  exact count_of_mem_pathNodes env hn

/-- Counting occurrences one by one is what the server's merge does to rows of count one. -/
theorem countOne_eq (t : Table StackNode.id) {ns : List StackNode}
    (h : ∀ n ∈ ns, n.sampleCount = 1) : t.upsertAll countOne ns = t.upsertAll addStackNode ns := by
  apply t.upsertAll_congr
  intro a n hn
  simp [countOne, addStackNode, h n hn]

variable (order : Arrangement) (args : Args) (symlists : List (List (List SymbolizedResult)))

theorem gather_eq : gather env args symlists =
    { stackNodeDataMap := Table.empty.upsertAll .first (batchDatas env symlists)
      stackNodeMap := Table.empty.upsertAll addStackNode
        (batchNodes env (executableOf env args).id symlists)
      executableMap := hitsMap env (executableOf env args) (batchStacks symlists) } := by
  rw [gather, sinkSymlists_eq env (executableOf env args) .empty [] rfl symlists,
    countOne_eq _ fun n hn ↦ (batchNodes_count env hn).1]
  rfl

theorem payload_stackNodes :
    (processAndSinkData env order args symlists).stackNodes.Perm
      ((Table.empty : Table StackNode.id).upsertAll addStackNode
        (batchNodes env (executableOf env args).id symlists)).rows := by
  have h : (processAndSinkData env order args symlists).stackNodes.Perm
      (gather env args symlists).stackNodeMap.rows := order.perm _
  rwa [gather_eq] at h

theorem payload_stackNodeDatas :
    (processAndSinkData env order args symlists).stackNodeDatas.Perm
      ((Table.empty : Table StackNodeData.id).upsertAll .first (batchDatas env symlists)).rows := by
  have h : (processAndSinkData env order args symlists).stackNodeDatas.Perm
      (gather env args symlists).stackNodeDataMap.rows := order.perm _
  rwa [gather_eq] at h

theorem payload_profiledBinaries :
    (processAndSinkData env order args symlists).profiledBinaries =
      if batchStacks symlists = [] then []
      else [{ hits env (executableOf env args) (batchStacks symlists) with
        processedDataSize := env.stoSize ((gather env args symlists).dataOut order) }] := by
  have hmap : (gather env args symlists).executableMap =
      hitsMap env (executableOf env args) (batchStacks symlists) := by rw [gather_eq]
  change order.arrange ((gather env args symlists).executableMap.modify _ _ _).rows = _
  rw [hmap]
  by_cases hs : batchStacks symlists = []
  · rw [if_pos hs, order.arrange_eq_nil, hitsMap, if_pos hs]
    rfl
  · have hid : (hits env (executableOf env args) (batchStacks symlists)).id =
        (executableOf env args).id := rfl
    have hzero :
        (hits env (executableOf env args) (batchStacks symlists)).processedDataSize = 0 := rfl
    rw [if_neg hs, hitsMap, if_neg hs]
    simp only [Table.modify, List.map_cons, List.map_nil, hid, if_true, hzero, zero_add]
    exact order.arrange_singleton _

end Sto
