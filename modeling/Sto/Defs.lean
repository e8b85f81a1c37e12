import Mathlib.Data.Int.Basic
import Mathlib.Data.List.Perm.Basic

namespace Sto

abbrev Timestamp := ℤ

inductive EventType
  | cycles
  | clock
  deriving DecidableEq, Repr

def EventType.toString : EventType → String
  | .cycles => "Cycles"
  | .clock => "Clock"

/-- The command line as the sink threads see it: `main` has put a name in place of a
missing `--binary` before any of them starts. -/
structure Args where
  pid : UInt32
  eventType : EventType
  binary : String
  version : Option String
  deriving DecidableEq, Repr

structure Executable where
  id : Int64
  event : String
  buildId : Option String
  basename : String
  updatedAt : Option Timestamp
  createdAt : Option Timestamp
  sampleCount : ℤ
  rawDataSize : ℤ
  processedDataSize : ℤ
  deriving DecidableEq, Repr

structure StackNode where
  id : Int64
  parentId : Option Int64
  stackNodeDataId : Int64
  executableId : Int64
  sampleCount : ℤ
  deriving DecidableEq, Repr

structure StackNodeData where
  id : Int64
  symbol : String
  file : Option String
  lineNumber : Option Int32
  deriving DecidableEq, Repr

structure StoData where
  stackNodes : List StackNode
  stackNodeDatas : List StackNodeData
  profiledBinaries : List Executable
  deriving DecidableEq, Repr

structure SymbolizedResult where
  symbol : String
  path : String
  lineNo : UInt64
  deriving DecidableEq, Repr

/-- An order that nothing in the program fixes: that of iterating a `HashMap`, or of
the rows of a query without `ORDER BY`. -/
structure Arrangement where
  arrange {β : Type} : List β → List β
  perm {β : Type} (l : List β) : (arrange l).Perm l

namespace Arrangement

def asIs : Arrangement := ⟨fun l ↦ l, fun _ ↦ .refl _⟩

def reversed : Arrangement := ⟨List.reverse, fun l ↦ l.reverse_perm⟩

theorem mem_arrange {β : Type} (order : Arrangement) {l : List β} {x : β} :
    x ∈ order.arrange l ↔ x ∈ l := (order.perm l).mem_iff

theorem arrange_eq_nil {β : Type} (order : Arrangement) {l : List β} :
    order.arrange l = [] ↔ l = [] := by
  constructor
  · intro h
    exact List.nil_perm.mp (h ▸ order.perm l)
  · rintro rfl
    exact List.perm_nil.mp (order.perm [])

@[simp] theorem arrange_nil {β : Type} (order : Arrangement) : order.arrange ([] : List β) = [] :=
  order.arrange_eq_nil.mpr rfl

theorem arrange_singleton {β : Type} (order : Arrangement) (x : β) : order.arrange [x] = [x] :=
  List.perm_singleton.mp (order.perm [x])

end Arrangement

end Sto
