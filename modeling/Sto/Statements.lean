import Sto.Ingest
import Sto.Library.QueryBuilder

namespace Sto

open Library

variable {pg : Postgres} {r : Request} {db db' : Db}

inductive Parameter
  | bigint (x : Option ℤ)
  | int (x : Option Int32)
  | text (s : Option String)
  | timestamptz (t : Timestamp)
  deriving DecidableEq

/-- `qb_1` -/
def stackNodeDataStatement (r : Request) : QueryBuilder Parameter :=
  ((QueryBuilder.new "insert into stack_node_data(id, symbol, file, line_number) ").pushValues
    (r.payload.stackNodeDatas.take (bindLimit / 4)) fun snd ↦
      [.bind (.bigint (some snd.id.toInt)),
       .bind (.text (some snd.symbol)),
       .bind (.text snd.file),
       .bind (.int snd.lineNumber)]).push
  " ON CONFLICT DO NOTHING "

/-- `qb_3` -/
def executableStatement (r : Request) : QueryBuilder Parameter :=
  ((QueryBuilder.new ("insert into executable(id, event, build_id, basename, updated_at, " ++
      "sample_count, raw_data_size, processed_data_size) ")).pushValues
    (r.payload.profiledBinaries.take (bindLimit / 4)) fun pb ↦
      [.bind (.bigint (some pb.id.toInt)),
       .bind (.text (some pb.event)),
       .bind (.text pb.buildId),
       .bind (.text (some pb.basename)),
       .bind (.timestamptz r.utcNow),
       .bind (.bigint (some pb.sampleCount)),
       .bind (.bigint (some pb.rawDataSize)),
       .bind (.bigint (some pb.processedDataSize))]).push
  (" ON CONFLICT (id) DO UPDATE SET sample_count = executable.sample_count + " ++
    "excluded.sample_count, updated_at = excluded.updated_at, raw_data_size = " ++
    "executable.raw_data_size + excluded.raw_data_size, processed_data_size = " ++
    "executable.processed_data_size + excluded.processed_data_size ")

/-- `qb_2`. The count of a node is written into the text. -/
def stackNodeStatement (r : Request) : QueryBuilder Parameter :=
  ((QueryBuilder.new
      "insert into stack_node(id, parent_id, stack_node_data_id, executable_id, sample_count) "
      ).pushValues
    (r.payload.stackNodes.take (bindLimit / 4)) fun sn ↦
      [.bind (.bigint (some sn.id.toInt)),
       .bind (.bigint (sn.parentId.map Int64.toInt)),
       .bind (.bigint (some sn.stackNodeDataId.toInt)),
       .bind (.bigint (some sn.executableId.toInt)),
       .text (toString sn.sampleCount)]).push
  (" ON CONFLICT (id) DO UPDATE SET sample_count = stack_node.sample_count + " ++
    "excluded.sample_count ")

/-- In the order in which `data_ingest` builds and sends them. -/
def statements (r : Request) : List (QueryBuilder Parameter) :=
  [stackNodeDataStatement r, executableStatement r, stackNodeStatement r]

theorem length_stackNodeDataStatement (pg : Postgres) (r : Request) :
    (stackNodeDataStatement r).arguments.length =
      (stackNodeDataColumns pg).binds * r.datas.length := by
  rw [stackNodeDataStatement, QueryBuilder.length_pushValues (n := 4) fun _ ↦ rfl, Request.datas,
    stackNodeDataColumns]

theorem length_executableStatement (pg : Postgres) (r : Request) :
    (executableStatement r).arguments.length =
      (executableColumns pg).binds * r.executables.length := by
  rw [executableStatement, QueryBuilder.length_pushValues (n := 8) fun _ ↦ rfl,
    Request.executables, List.length_map, executableColumns]

theorem length_stackNodeStatement (r : Request) :
    (stackNodeStatement r).arguments.length = stackNodeColumns.binds * r.nodes.length := by
  rw [stackNodeStatement, QueryBuilder.length_pushValues (n := 4) fun _ ↦ rfl, Request.nodes,
    stackNodeColumns]

theorem insertExecutable_tooManyParameters
    (h : bindLimit < (executableStatement r).arguments.length) (pg : Postgres) (db : Db) :
    insertExecutable pg r db = .error .tooManyParameters := by
  rw [length_executableStatement pg] at h
  have hc := checkTuples_tooManyParameters.mpr h
  have hx : insertOrUpdate (executableColumns pg) addExecutable r.executables db.executable =
      .error .tooManyParameters := by
    rw [insertOrUpdate, hc]
  change (insertOrUpdate (executableColumns pg) addExecutable r.executables _).map _ = _
  rw [hx, Except.map]

theorem dataIngest_tooManyParameters
    (h : bindLimit < (executableStatement r).arguments.length)
    (hd : insertStackNodeData pg r db = .ok db') :
    dataIngest pg r db = (db', some .tooManyParameters) := by
  have he := insertExecutable_tooManyParameters h pg db'
  simp only [dataIngest, transactions, serial, hd, he]

theorem binds_take_le {α : Type} (xs : List α) :
    4 * (xs.take (bindLimit / 4)).length ≤ bindLimit := by
  have h : (xs.take (bindLimit / 4)).length ≤ bindLimit / 4 := List.length_take_le _ _
  calc 4 * (xs.take (bindLimit / 4)).length ≤ 4 * (bindLimit / 4) := Nat.mul_le_mul_left 4 h
    _ ≤ bindLimit := Nat.mul_div_le bindLimit 4

theorem stackNodeDataStatement_within (r : Request) :
    (stackNodeDataStatement r).arguments.length ≤ bindLimit := by
  rw [length_stackNodeDataStatement lenientPostgres]
  exact binds_take_le _

theorem stackNodeStatement_within (r : Request) :
    (stackNodeStatement r).arguments.length ≤ bindLimit := by
  rw [length_stackNodeStatement]
  exact binds_take_le _

theorem executableStatement_within_iff (r : Request) :
    (executableStatement r).arguments.length ≤ bindLimit ↔
      r.payload.profiledBinaries.length ≤ bindLimit / 8 := by
  rw [length_executableStatement lenientPostgres, Request.executables, List.length_map,
    List.length_take]
  simp only [executableColumns, bindLimit]
  omega

/-- Eight columns a row do not fit the cap that four columns fit. -/
theorem statements_within_bindLimit_iff (r : Request) :
    (∀ qb ∈ statements r, qb.arguments.length ≤ bindLimit) ↔
      r.payload.profiledBinaries.length ≤ bindLimit / 8 := by
  rw [← executableStatement_within_iff]
  constructor
  · intro h
    exact h _ (List.mem_cons_of_mem _ List.mem_cons_self)
  · intro h qb hqb
    simp only [statements, List.mem_cons, List.not_mem_nil, or_false] at hqb
    obtain rfl | rfl | rfl := hqb
    · exact stackNodeDataStatement_within r
    · exact h
    · exact stackNodeStatement_within r

def crowdedRequest (n : ℕ) : Request where
  payload := ⟨[⟨1, none, 1, 0, 1⟩], [⟨1, "main", none, none⟩],
    (List.range n).map fun i ↦ ⟨Int64.ofNat i, "Cycles", none, "demo", none, none, 1, 1, 1⟩⟩
  utcNow := 0
  dbNow := 0

theorem crowdedRequest_exceeds_bindLimit :
    ¬ ∀ qb ∈ statements (crowdedRequest 8192), qb.arguments.length ≤ bindLimit := by
  intro h
  have hmem : executableStatement (crowdedRequest 8192) ∈ statements (crowdedRequest 8192) :=
    List.mem_cons_of_mem _ List.mem_cons_self
  have hle := (executableStatement_within_iff _).mp (h _ hmem)
  simp only [crowdedRequest, List.length_map, List.length_range, bindLimit] at hle
  omega

end Sto
