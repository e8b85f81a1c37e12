import Sto.Upload
import Sto.Library.SharedCache

namespace Sto

open Library

variable {α : Type} (env : Externals)

inductive CacheName
  | symCache
  | dataIdCache
  | nodeIdCache
  | miscIdCache
  deriving DecidableEq

namespace CacheName

/-- A node or a frame is a key as a whole, with the id that it has when it is looked up. -/
@[reducible] def Key : CacheName → Type
  | symCache => String
  | dataIdCache => StackNodeData
  | nodeIdCache => StackNode
  | miscIdCache => String

@[reducible] def Value : CacheName → Type
  | symCache => String
  | dataIdCache => Int64
  | nodeIdCache => Int64
  | miscIdCache => Int64

instance : ∀ cache : CacheName, DecidableEq cache.Key
  | symCache => inferInstanceAs (DecidableEq String)
  | dataIdCache => inferInstanceAs (DecidableEq StackNodeData)
  | nodeIdCache => inferInstanceAs (DecidableEq StackNode)
  | miscIdCache => inferInstanceAs (DecidableEq String)

def value : ∀ cache : CacheName, cache.Key → cache.Value
  | symCache, mangled => env.tryDemangle mangled
  | dataIdCache, data => finalizeId env (dataBytes data)
  | nodeIdCache, data => finalizeId env (stackNodeBytes data)
  | miscIdCache, data => finalizeId env (utf8 data)

end CacheName

-- The functions of the client once more, now with their caches.
namespace Cached

abbrev CacheAccess (α : Type) := Access CacheName.Key CacheName.Value α

def cachedDemangle (mangled : String) : CacheAccess String :=
  .getOrInsert .symCache mangled (env.tryDemangle mangled) fun demangled ↦ demangled

def miscId (data : String) : CacheAccess Int64 :=
  .getOrInsert .miscIdCache data (finalizeId env (utf8 data)) fun id ↦ id

/-- The node is inserted before it gets its id. -/
def idStackNode (data : StackNode) : CacheAccess StackNode :=
  .getOrInsert .nodeIdCache data (finalizeId env (stackNodeBytes data)) fun id ↦
    { data with id := id }

def idData (data : StackNodeData) : CacheAccess StackNodeData :=
  .getOrInsert .dataIdCache data (finalizeId env (dataBytes data)) fun id ↦ { data with id := id }

end Cached

inductive Call
  | cachedDemangle (mangled : String)
  | miscId (data : String)
  | idStackNode (data : StackNode)
  | idData (data : StackNodeData)

namespace Call

@[reducible] def Result : Call → Type
  | cachedDemangle _ => String
  | miscId _ => Int64
  | idStackNode _ => StackNode
  | idData _ => StackNodeData

def body : ∀ call : Call, Cached.CacheAccess call.Result
  | cachedDemangle mangled => Cached.cachedDemangle env mangled
  | miscId data => Cached.miscId env data
  | idStackNode data => Cached.idStackNode env data
  | idData data => Cached.idData env data

def result : ∀ call : Call, call.Result
  | cachedDemangle mangled => Sto.cachedDemangle env mangled
  | miscId data => Sto.miscId env data
  | idStackNode data => Sto.idStackNode env data
  | idData data => Sto.idData env data

theorem results_body : results (body env) = result env := by
  funext call
  cases call <;> rfl

theorem transparent_body (call : Call) : (body env call).Transparent (CacheName.value env) := by
  cases call <;> exact Access.transparent_getOrInsert (CacheName.value env) _ _ _

theorem steps_body (call : Call) : (body env call).steps (CacheName.value env) = 3 := by
  cases call <;> exact Access.steps_getOrInsert ..

end Call

theorem steps_calls (p : Client Call.Result α) :
    p.steps (CacheName.value env) (Call.body env) = 4 * (p.calls (Call.result env)).length := by
  induction p with
  | done a => rfl
  | call c next ih =>
    rw [Client.steps, Client.calls, Call.steps_body, Call.results_body, ih, List.length_cons]
    omega

theorem finished_calls (clients : List (Client Call.Result α)) (events : List (Event CacheName))
    {n : ℕ} {p : Client Call.Result α} (hp : clients[n]? = some p)
    (hmoves : 4 * (p.calls (Call.result env)).length ≤ events.countP (Event.moves n)) :
    ((Shared.start clients).run (Call.body env) events).threads[n]? =
      some ⟨p.calls (Call.result env), .between (.done (p.eval (Call.result env)))⟩ := by
  have hsound := Shared.Sound.run (Call.transparent_body env) clients events
  rw [← steps_calls] at hmoves
  rw [← Call.results_body]
  exact hsound.finished hp hmoves

/-- Whatever threads call the functions, in whatever order their lookups and insertions happen
and whatever is evicted meanwhile: every call returns what it returns without the caches. -/
theorem caches_are_transparent (clients : List (Client Call.Result α))
    (events : List (Event CacheName)) :
    let s := (Shared.start clients).run (Call.body env) events
    (∀ t ∈ s.threads, ∀ r ∈ t.returned, r.2 = r.1.result env) ∧
      ∀ n p, clients[n]? = some p →
        4 * (p.calls (Call.result env)).length ≤ events.countP (Event.moves n) →
          s.threads[n]? = some
            ⟨p.calls (Call.result env), .between (.done (p.eval (Call.result env)))⟩ := by
  intro s
  refine ⟨fun t ht r hr ↦ ?_, fun n p hp hmoves ↦ finished_calls env clients events hp hmoves⟩
  rw [← Call.results_body env]
  exact (Shared.Sound.run (Call.transparent_body env) clients events).returned ht hr

namespace Cached

def executableOf (args : Args) : Client Call.Result Executable :=
  .call (.miscId (match args.version with
    | some x => args.binary ++ x
    | none => args.binary)) fun (id : Int64) ↦
  .done
    { id := id
      event := args.eventType.toString
      buildId := args.version
      basename := args.binary
      updatedAt := none
      createdAt := none
      sampleCount := 0
      rawDataSize := 0
      processedDataSize := 0 }

def sinkFrame (executable : Executable) (s : Maps × Option Int64) (frame : SymbolizedResult) :
    Client Call.Result (Maps × Option Int64) :=
  .call (.cachedDemangle frame.symbol) fun (symbol : String) ↦
  .call (.idData ⟨0, symbol, frameFile frame, frameLine frame⟩) fun (data : StackNodeData) ↦
  .call (.idStackNode ⟨0, s.2, data.id, executable.id, 1⟩) fun (stackNode : StackNode) ↦
  .done
    ({ s.1 with
        stackNodeDataMap := s.1.stackNodeDataMap.upsert .first data
        stackNodeMap := s.1.stackNodeMap.upsert countOne stackNode },
      some stackNode.id)

/-- `and_modify(|e| e.sample_count += 1)` and `and_modify(|e| e.raw_data_size += …)` -/
def addStack (stack : List SymbolizedResult) (e : Executable) : Executable :=
  { e with
    sampleCount := e.sampleCount + 1
    rawDataSize := e.rawDataSize + env.stackSize stack }

theorem addStack_id (stack : List SymbolizedResult) (e : Executable) :
    (addStack env stack e).id = e.id := rfl

def sinkStack (executable : Executable) (s : Maps × Option Int64) (stack : List SymbolizedResult) :
    Client Call.Result (Maps × Option Int64) :=
  let executableMap := (s.1.executableMap.upsert .first executable).modify executable.id
    (addStack env stack) (addStack_id env stack)
  .foldl (sinkFrame executable) ({ s.1 with executableMap := executableMap }, s.2) stack

def sinkSymlist (executable : Executable) (maps : Maps) (symlist : List (List SymbolizedResult)) :
    Client Call.Result Maps :=
  (Client.foldl (sinkStack env executable) (maps, none) symlist.reverse).bind fun s ↦ .done s.1

def processAndSinkData (order : Arrangement) (args : Args)
    (symlists : List (List (List SymbolizedResult))) : Client Call.Result StoData :=
  (executableOf args).bind fun executable ↦
  (Client.foldl (sinkSymlist env executable) .empty symlists).bind fun maps ↦
  let dataOut := maps.dataOut order
  let executableMap := maps.executableMap.modify executable.id
    (fun e ↦ { e with processedDataSize := e.processedDataSize + env.stoSize dataOut }) fun _ ↦ rfl
  .done { dataOut with profiledBinaries := order.arrange executableMap.rows }

theorem eval_executableOf (args : Args) :
    (executableOf args).eval (Call.result env) = Sto.executableOf env args := by
  obtain ⟨pid, eventType, binary, version⟩ := args
  cases version <;> rfl

theorem eval_sinkSymlist (executable : Executable) (maps : Maps)
    (symlist : List (List SymbolizedResult)) :
    (sinkSymlist env executable maps symlist).eval (Call.result env) =
      Sto.sinkSymlist env executable maps symlist := by
  have hstack : ∀ s stack, (sinkStack env executable s stack).eval (Call.result env) =
      Sto.sinkStack env executable s stack := fun s stack ↦ Client.eval_foldl _ _ _ _
  rw [sinkSymlist, Client.eval_bind, Client.eval_foldl]
  simp only [hstack]
  rfl

/-- A sink comes to the payload that it makes without the caches. -/
theorem eval_processAndSinkData (order : Arrangement) (args : Args)
    (symlists : List (List (List SymbolizedResult))) :
    (processAndSinkData env order args symlists).eval (Call.result env) =
      Sto.processAndSinkData env order args symlists := by
  rw [processAndSinkData, Client.eval_bind, eval_executableOf, Client.eval_bind,
    Client.eval_foldl]
  simp only [eval_sinkSymlist]
  rfl

end Cached

/-- Sinks that share the caches post the payloads that the server's side of the model takes. -/
theorem sinks_post_payloads (us : List Upload) (events : List (Event CacheName)) {n : ℕ}
    {u : Upload} (hu : us[n]? = some u) :
    let sink := fun u : Upload ↦ Cached.processAndSinkData env u.order u.args u.symlists
    4 * ((sink u).calls (Call.result env)).length ≤ events.countP (Event.moves n) →
      ∃ returned, ((Shared.start (us.map sink)).run (Call.body env) events).threads[n]? =
        some ⟨returned, .between (.done (u.payload env))⟩ := by
  intro sink hmoves
  have hsink : (us.map sink)[n]? = some (sink u) := by rw [List.getElem?_map, hu, Option.map_some]
  have hpayload : (sink u).eval (Call.result env) = u.payload env :=
    Cached.eval_processAndSinkData env u.order u.args u.symlists
  rw [← hpayload]
  exact ⟨_, finished_calls env _ events hsink hmoves⟩

end Sto
