import Sto.Defs
import Sto.Library.InsertStatement
import Sto.Library.Interleaving

namespace Sto

open Library

def bindLimit : ℕ := 65535

/-- What Postgres decides about values and the schema does not say: the texts that its
encoding can hold, and the frames whose index entries and search vector fit. -/
structure Postgres where
  text : String → Bool
  indexable : StackNodeData → Bool

def lenientPostgres : Postgres := ⟨fun _ ↦ true, fun _ ↦ true⟩

def bigint (x : ℤ) : Bool := decide (-2 ^ 63 ≤ x) && decide (x < 2 ^ 63)

structure Db where
  stackNodeData : Table StackNodeData.id
  executable : Table Executable.id
  stackNode : Table StackNode.id

def Db.empty : Db := ⟨.empty, .empty, .empty⟩

variable (pg : Postgres)

/-- Rows with a null in the index on `(symbol, file, line_number)` never clash. -/
def stackNodeDataColumns : Columns StackNodeData where
  binds := 4
  bindable d := pg.text d.symbol && d.file.all pg.text
  storable d := pg.indexable d
  clashes a b := decide (a.symbol = b.symbol) && (a.file.isSome && decide (a.file = b.file)) &&
    (a.lineNumber.isSome && decide (a.lineNumber = b.lineNumber))

def executableColumns : Columns Executable where
  binds := 8
  bindable e := pg.text e.event && e.buildId.all pg.text && pg.text e.basename &&
    (bigint e.sampleCount && bigint e.rawDataSize && bigint e.processedDataSize)
  storable e := bigint e.sampleCount && bigint e.rawDataSize && bigint e.processedDataSize
  clashes _ _ := false

/-- `sample_count` is pushed as a literal, so a tuple binds four of its five values. -/
def stackNodeColumns : Columns StackNode where
  binds := 4
  bindable n := bigint n.sampleCount
  storable n := bigint n.sampleCount
  clashes a b := a.parentId.isSome && decide (a.parentId = b.parentId) && decide (a.id = b.id)

/-- `SET sample_count = stack_node.sample_count + excluded.sample_count` -/
def addStackNode : Merge StackNode.id :=
  ⟨fun a b ↦ { a with sampleCount := a.sampleCount + b.sampleCount }, fun _ _ _ ↦ rfl⟩

/-- `SET sample_count = …, updated_at = excluded.updated_at, raw_data_size = …,
processed_data_size = …` -/
def addExecutable : Merge Executable.id :=
  ⟨fun a b ↦ { a with
      sampleCount := a.sampleCount + b.sampleCount
      updatedAt := b.updatedAt
      rawDataSize := a.rawDataSize + b.rawDataSize
      processedDataSize := a.processedDataSize + b.processedDataSize }, fun _ _ _ ↦ rfl⟩

/-- A posted payload, with the readings of the two clocks that its executable row gets:
`Utc::now()` on the server and `now()` in the database. -/
structure Request where
  payload : StoData
  utcNow : Timestamp
  dbNow : Timestamp

def insertStackNodeData (r : Request) (db : Db) : Except SqlError Db :=
  (insertOrSkip (stackNodeDataColumns pg) (r.payload.stackNodeDatas.take (bindLimit / 4))
    db.stackNodeData).map fun t ↦ { db with stackNodeData := t }

/-- `updated_at` is bound, `created_at` is left to its default. -/
def stamp (r : Request) (pb : Executable) : Executable :=
  { pb with updatedAt := some r.utcNow, createdAt := some r.dbNow }

def insertExecutable (r : Request) (db : Db) : Except SqlError Db :=
  (insertOrUpdate (executableColumns pg) addExecutable
    ((r.payload.profiledBinaries.take (bindLimit / 4)).map (stamp r)) db.executable).map
      fun t ↦ { db with executable := t }

def Db.resolves (db : Db) (n : StackNode) : Bool :=
  n.parentId.all (fun p ↦ db.stackNode.Has p) &&
    decide (db.stackNodeData.Has n.stackNodeDataId) && decide (db.executable.Has n.executableId)

/-- The deferred foreign keys of the new rows are checked at commit. -/
def commitStackNode (ns : List StackNode) (before after : Db) : Except SqlError Db :=
  if (ns.filter fun n ↦ ¬ before.stackNode.Has n.id).all after.resolves then .ok after
  else .error .foreignKeyViolation

def insertStackNode (r : Request) (db : Db) : Except SqlError Db :=
  (insertOrUpdate stackNodeColumns addStackNode (r.payload.stackNodes.take (bindLimit / 4))
    db.stackNode).bind fun t ↦
      commitStackNode (r.payload.stackNodes.take (bindLimit / 4)) db { db with stackNode := t }

def transactions (r : Request) : List (Db → Except SqlError Db) :=
  [insertStackNodeData pg r, insertExecutable pg r, insertStackNode r]

/-- Three transactions on connections of their own. The request panics at the first one
that fails. -/
def dataIngest (r : Request) (db : Db) : Db × Option SqlError := serial (transactions pg r) db

end Sto
