import Sto.Defs
import Sto.Library.KeyedTable

namespace Sto

open Library

/-- The code outside the repository that the client calls: HighwayHash under
`HASHER_SEED`, which takes the concatenation of what is appended to it, the demangler,
the two uses of deepsize, and blazesym for a pid and a user stack. -/
structure Externals where
  hash64 : List UInt8 → UInt64
  tryDemangle : String → String
  stackSize : List SymbolizedResult → ℕ
  stoSize : StoData → ℕ
  blazesym : UInt32 → List UInt64 → List (List SymbolizedResult)

/-- Unicode's `White_Space`, which is what `str::trim` strips. -/
def isWhiteSpace (c : Char) : Bool :=
  (9 ≤ c.toNat && c.toNat ≤ 13) || (0x2000 ≤ c.toNat && c.toNat ≤ 0x200A) ||
    [0x20, 0x85, 0xA0, 0x1680, 0x2028, 0x2029, 0x202F, 0x205F, 0x3000].contains c.toNat

def trim (s : String) : String :=
  String.ofList ((s.toList.dropWhile isWhiteSpace).reverse.dropWhile isWhiteSpace).reverse

def utf8 (s : String) : List UInt8 := s.toUTF8.toList

def toBeBytes64 (x : Int64) : List UInt8 :=
  ([56, 48, 40, 32, 24, 16, 8, 0] : List UInt64).map fun k ↦ (x.toUInt64 >>> k).toUInt8

def toBeBytes32 (x : Int32) : List UInt8 :=
  ([24, 16, 8, 0] : List UInt32).map fun k ↦ (x.toUInt32 >>> k).toUInt8

variable (env : Externals)

/-- `finalize64() as i64` and then `abs`, which leaves the least value as it is. -/
def finalizeId (bytes : List UInt8) : Int64 := (env.hash64 bytes).toInt64.abs

-- The functions below are what the caches in front of them remember.

def cachedDemangle (mangled : String) : String := env.tryDemangle mangled

def miscId (data : String) : Int64 := finalizeId env (utf8 data)

def stackNodeBytes (data : StackNode) : List UInt8 :=
  (match data.parentId with
    | some parentId => toBeBytes64 parentId
    | none => []) ++ toBeBytes64 data.stackNodeDataId ++ toBeBytes64 data.executableId

def idStackNode (data : StackNode) : StackNode :=
  { data with id := finalizeId env (stackNodeBytes data) }

def dataBytes (data : StackNodeData) : List UInt8 :=
  utf8 data.symbol ++
    (match data.file with
      | some file => utf8 file
      | none => []) ++
    (match data.lineNumber with
      | some lineNumber => toBeBytes32 lineNumber
      | none => [])

def idData (data : StackNodeData) : StackNodeData :=
  { data with id := finalizeId env (dataBytes data) }

structure Maps where
  stackNodeMap : Table StackNode.id
  stackNodeDataMap : Table StackNodeData.id
  executableMap : Table Executable.id

def Maps.empty : Maps := ⟨.empty, .empty, .empty⟩

/-- `and_modify(|e| e.sample_count += 1).or_insert(stack_node)` -/
def countOne : Merge StackNode.id :=
  ⟨fun e _ ↦ { e with sampleCount := e.sampleCount + 1 }, fun _ _ _ ↦ rfl⟩

def executableOf (args : Args) : Executable where
  id := match args.version with
    | some x => miscId env (args.binary ++ x)
    | none => miscId env args.binary
  event := args.eventType.toString
  buildId := args.version
  basename := args.binary
  updatedAt := none
  createdAt := none
  sampleCount := 0
  rawDataSize := 0
  processedDataSize := 0

def frameFile (frame : SymbolizedResult) : Option String :=
  if (trim frame.path).isEmpty then none else some (trim frame.path)

/-- `frame.line_no as i32` for a positive line number. -/
def frameLine (frame : SymbolizedResult) : Option Int32 :=
  if frame.lineNo > 0 then some frame.lineNo.toUInt32.toInt32 else none

/-- One frame of one address. The second component is `parent_id`. -/
def sinkFrame (executable : Executable) (s : Maps × Option Int64) (frame : SymbolizedResult) :
    Maps × Option Int64 :=
  let data := idData env
    { id := 0
      symbol := cachedDemangle env frame.symbol
      file := frameFile frame
      lineNumber := frameLine frame }
  let stackNode := idStackNode env
    { id := 0
      parentId := s.2
      stackNodeDataId := data.id
      executableId := executable.id
      sampleCount := 1 }
  ({ s.1 with
      stackNodeDataMap := s.1.stackNodeDataMap.upsert .first data
      stackNodeMap := s.1.stackNodeMap.upsert countOne stackNode },
    some stackNode.id)

/-- One address: it counts for the executable, whatever it resolves to. -/
def sinkStack (executable : Executable) (s : Maps × Option Int64) (stack : List SymbolizedResult) :
    Maps × Option Int64 :=
  let executableMap := (s.1.executableMap.upsert .first executable).modify executable.id
    (fun e ↦ { e with
      sampleCount := e.sampleCount + 1
      rawDataSize := e.rawDataSize + env.stackSize stack }) fun _ ↦ rfl
  stack.foldl (sinkFrame env executable) ({ s.1 with executableMap := executableMap }, s.2)

def sinkSymlist (executable : Executable) (maps : Maps) (symlist : List (List SymbolizedResult)) :
    Maps :=
  (symlist.reverse.foldl (sinkStack env executable) (maps, none)).1

def gather (args : Args) (symlists : List (List (List SymbolizedResult))) : Maps :=
  symlists.foldl (sinkSymlist env (executableOf env args)) .empty

def Maps.dataOut (order : Arrangement) (maps : Maps) : StoData where
  stackNodes := order.arrange maps.stackNodeMap.rows
  stackNodeDatas := order.arrange maps.stackNodeDataMap.rows
  profiledBinaries := order.arrange maps.executableMap.rows

/-- The payload that is posted. The size that it reports is its own, measured before the
executable's entry holds it. -/
def processAndSinkData (order : Arrangement) (args : Args)
    (symlists : List (List (List SymbolizedResult))) : StoData :=
  let maps := gather env args symlists
  let dataOut := maps.dataOut order
  let executableMap := maps.executableMap.modify (executableOf env args).id
    (fun e ↦ { e with processedDataSize := e.processedDataSize + env.stoSize dataOut }) fun _ ↦ rfl
  { dataOut with profiledBinaries := order.arrange executableMap.rows }

end Sto
