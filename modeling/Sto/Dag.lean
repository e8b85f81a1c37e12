import Sto.Server

namespace Sto

open Library

structure D3FlamegraphData where
  name : String
  value : ℤ
  filename : Option String
  lineNumber : Option Int32
  children : Option (List D3FlamegraphData)

/-- The `unwrap`s and `expect`s of the handlers that read. -/
inductive DagError
  | executableMissing
  | nodeMissing
  | dataMissing
  | stackOverflow
  deriving DecidableEq, Repr

/-- An entry of `sn_p_id_map`. -/
structure Siblings where
  parent : Int64
  nodes : List StackNode

def pushSibling : Merge Siblings.parent :=
  ⟨fun e v ↦ { e with nodes := e.nodes ++ v.nodes }, fun _ _ _ ↦ rfl⟩

def siblingOf (v : StackNode) : Option Siblings := v.parentId.map fun p ↦ ⟨p, [v]⟩

def baseFilename (x : String) : String :=
  String.ofList (x.toList.reverse.takeWhile (· ≠ '/')).reverse

def displayName (sd : StackNodeData) : String :=
  match sd.file with
  | some x =>
    if x.toList.contains '/' then
      match sd.lineNumber with
      | some y => sd.symbol ++ ":" ++ baseFilename x ++ ":" ++ toString y
      | none => sd.symbol ++ ":" ++ baseFilename x
    else
      match sd.lineNumber with
      | some y => sd.symbol ++ ":" ++ x ++ ":" ++ toString y
      | none => sd.symbol ++ ":" ++ x
  | none => sd.symbol

/-- The source recurses on a stack of its own; here the depth it may reach is a parameter. -/
def buildDag (snIdMap : Table StackNode.id) (sdMap : Table StackNodeData.id)
    (snPIdMap : Table Siblings.parent) : ℕ → Int64 → Except DagError D3FlamegraphData
  | 0, _ => .error .stackOverflow
  | depth + 1, curId =>
    match snIdMap.lookup curId with
    | none => .error .nodeMissing
    | some curSn =>
      match sdMap.lookup curSn.stackNodeDataId with
      | none => .error .dataMissing
      | some curSd =>
        let node (children : Option (List D3FlamegraphData)) : D3FlamegraphData :=
          { name := displayName curSd
            value := curSn.sampleCount
            filename := curSd.file
            lineNumber := curSd.lineNumber
            children := children }
        match snPIdMap.lookup curId with
        | none => .ok (node none)
        | some idList =>
          (idList.nodes.mapM fun x ↦ buildDag snIdMap sdMap snPIdMap depth x.id).map
            fun children ↦ node (some children)

/-- The thread that builds the tree. `order` is that of iterating `sn_id_map`. The value of the
root is a sum of `i64`s that is taken to fit into one. -/
def renderDag (order : Arrangement) (sn : List StackNode) (snd : List StackNodeData)
    (pb : Executable) : Except DagError D3FlamegraphData :=
  let sdMap : Table StackNodeData.id := Table.empty.upsertAll .last snd
  let snIdMap : Table StackNode.id := Table.empty.upsertAll .last sn
  let snPIdMap : Table Siblings.parent :=
    Table.empty.upsertAll pushSibling ((order.arrange snIdMap.rows).filterMap siblingOf)
  ((sn.filter fun x ↦ x.parentId.isNone).mapM fun x ↦
    buildDag snIdMap sdMap snPIdMap sn.length x.id).map fun children ↦
      { name := pb.basename
        value := (children.map D3FlamegraphData.value).sum
        filename := none
        lineNumber := none
        children := some children }

/-- `select * from stack_node where executable_id = $1` -/
def selectStackNode (order : Arrangement) (id : Int64) (db : Db) : List StackNode :=
  order.arrange (db.stackNode.rows.filter fun n ↦ n.executableId = id)

/-- `select d.* from stack_node_data d inner join stack_node n on n.stack_node_data_id = d.id
where n.executable_id = $1` -/
def selectStackNodeData (order : Arrangement) (id : Int64) (db : Db) : List StackNodeData :=
  order.arrange (db.stackNodeData.rows.flatMap fun d ↦
    (db.stackNode.rows.filter fun n ↦
      decide (n.stackNodeDataId = d.id) && decide (n.executableId = id)).map fun _ ↦ d)

def selectExecutable (id : Int64) (db : Db) : Option Executable := db.executable.lookup id

/-- `GET /data/<id>` -/
def metadata (id : Int64) (db : Db) : Except DagError Executable :=
  match selectExecutable id db with
  | none => .error .executableMissing
  | some pb => .ok pb

def junkTestData : D3FlamegraphData where
  name := "junk test data"
  value := 12
  filename := some "/var/asdas/ffff.cpp"
  lineNumber := some 123
  children := some
    [{ name := "dqwd", value := 2, filename := none, lineNumber := none, children := none },
     { name := "dsqwd", value := 3, filename := none, lineNumber := none, children := none }]

/-- `GET /dag/<id>`. Its three queries see the states `db₁`, `db₂` and `db₃`; `rows` orders
their results and `iter` the hash map. -/
def getDag (rows iter : Arrangement) (id : Int64) (db₁ db₂ db₃ : Db) :
    Except DagError D3FlamegraphData :=
  if id = 123 then .ok junkTestData
  else
    let sn := selectStackNode rows id db₁
    let snd := selectStackNodeData rows id db₂
    match selectExecutable id db₃ with
    | none => .error .executableMissing
    | some pb => renderDag iter sn snd pb

end Sto
