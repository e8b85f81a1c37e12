import Sto.Collector
import Sto.Upload
import Sto.Library.RingBuffer

namespace Sto

open Library

def maxStackDepth : ℕ := 128

def taskCommLen : ℕ := 16

structure StacktraceEvent where
  pid : UInt32
  cpuId : UInt32
  comm : Vector Int8 taskCommLen
  kstackSz : Int32
  ustackSz : Int32
  kstack : Vector UInt64 maxStackDepth
  ustack : Vector UInt64 maxStackDepth
  deriving DecidableEq

/-- What the kernel's helpers return to the program at a perf event, and for those that fill
a buffer, what it holds afterwards. -/
structure PerfEvent where
  currentPidTgid : UInt64
  smpProcessorId : UInt32
  currentComm : Int64 × Vector Int8 taskCommLen
  kernelStack : Int64 × Vector UInt64 maxStackDepth
  userStack : Int64 × Vector UInt64 maxStackDepth

/-- What the program writes into the record that it has reserved. -/
def PerfEvent.record (ctx : PerfEvent) : StacktraceEvent where
  pid := (ctx.currentPidTgid >>> 32).toUInt32
  cpuId := ctx.smpProcessorId
  comm := if ctx.currentComm.1 ≠ 0 then ctx.currentComm.2.set 0 0 (by decide) else ctx.currentComm.2
  kstackSz := ctx.kernelStack.1.toInt32
  ustackSz := ctx.userStack.1.toInt32
  kstack := ctx.kernelStack.2
  ustack := ctx.userStack.2

def sizeofStacktraceEvent : ℕ := 4 + 4 + taskCommLen + 4 + 4 + maxStackDepth * 8 + maxStackDepth * 8

def maxEntries : ℕ := 256 * 1024

/-- The records that `events` has room for: the kernel puts a header of eight bytes before
each, and never fills the buffer to its last byte. -/
def eventsCapacity : ℕ := (maxEntries - 1) / (8 + sizeofStacktraceEvent)

/-- What has become of samples and batches that are on their way no more. The program keeps
none of it. -/
structure Ledger where
  missed : List StacktraceEvent
  skipped : List StacktraceEvent
  passed : List StacktraceEvent
  received : List StackInfo
  undelivered : List (List (List (List SymbolizedResult)))
  delivered : List Upload

def Ledger.post (ledger : Ledger) (u : Upload) : Bool → Ledger
  | true => { ledger with delivered := ledger.delivered ++ [u] }
  | false => { ledger with undelivered := ledger.undelivered ++ [u.symlists] }

/-- A run of the profiler: the kernel's ring buffer, the threads that have a sample to send,
the channel, the collecting thread, and the sink threads that have a batch to post. -/
structure Profiler where
  args : Args
  events : RingBuffer StacktraceEvent eventsCapacity
  senders : List StackInfo
  channel : List StackInfo
  collector : Collector
  sinks : List (List (List (List SymbolizedResult)))
  ledger : Ledger

def Profiler.start (args : Args) : Profiler :=
  ⟨args, .empty, [], [], .start, [], ⟨[], [], [], [], [], []⟩⟩

inductive ProfilerStep
  | sample (ctx : PerfEvent)
  | submit (slot : ℕ)
  | poll
  | send (thread : ℕ)
  | recv
  | post (sink : ℕ) (order : Arrangement) (utcNow dbNow : Timestamp) (arrives : Bool)

namespace Profiler

variable (env : Externals)

/-- The program in the kernel, up to `bpf_ringbuf_reserve`, which fails while the buffer is
full. -/
def sample (p : Profiler) (ctx : PerfEvent) : Profiler :=
  match p.events.reserve ctx.record with
  | some events => { p with events := events }
  | none => { p with ledger := { p.ledger with missed := p.ledger.missed ++ [ctx.record] } }

def submit (p : Profiler) (slot : ℕ) : Profiler := { p with events := p.events.submit slot }

def stackInfo (args : Args) (event : StacktraceEvent) : StackInfo := ⟨event.ustack.toList, args⟩

/-- `rb.poll` calls back with one record. Each sample goes to a thread of its own. -/
def poll (p : Profiler) : Profiler :=
  match p.events.consume with
  | none => p
  | some (event, events) =>
    if event.pid = 0 then
      { p with
        events := events
        ledger := { p.ledger with skipped := p.ledger.skipped ++ [event] } }
    else
      { p with
        events := events
        senders := p.senders ++ [stackInfo p.args event]
        ledger := { p.ledger with passed := p.ledger.passed ++ [event] } }

def send (p : Profiler) (thread : ℕ) : Profiler :=
  match p.senders[thread]? with
  | none => p
  | some info =>
    { p with senders := p.senders.eraseIdx thread, channel := p.channel ++ [info] }

/-- A turn of the collecting thread, which starts a sink thread for each batch. -/
def recv (p : Profiler) : Profiler :=
  match p.channel with
  | [] => p
  | dataChunk :: channel =>
    let collector := p.collector.recv env (some dataChunk)
    { p with
      channel := channel
      collector := collector
      sinks := p.sinks ++ collector.sunk.drop p.collector.sunk.length
      ledger := { p.ledger with received := p.ledger.received ++ [dataChunk] } }

/-- A sink thread posts its batch. Whether that arrives or not, it is done with it. -/
def post (p : Profiler) (sink : ℕ) (order : Arrangement) (utcNow dbNow : Timestamp)
    (arrives : Bool) : Profiler :=
  match p.sinks[sink]? with
  | none => p
  | some batch =>
    { p with
      sinks := p.sinks.eraseIdx sink
      ledger := p.ledger.post ⟨p.args, batch, order, utcNow, dbNow⟩ arrives }

def step (p : Profiler) : ProfilerStep → Profiler
  | .sample ctx => p.sample ctx
  | .submit slot => p.submit slot
  | .poll => p.poll
  | .send thread => p.send thread
  | .recv => p.recv env
  | .post sink order utcNow dbNow arrives => p.post sink order utcNow dbNow arrives

def run (p : Profiler) (steps : List ProfilerStep) : Profiler := steps.foldl (step env) p

def taken (steps : List ProfilerStep) : List StacktraceEvent :=
  steps.filterMap fun
    | .sample ctx => some ctx.record
    | _ => none

/-- Where the samples taken so far are. -/
structure Accounts (args : Args) (taken : List StacktraceEvent) (p : Profiler) : Prop where
  configured : p.args = args
  recorded : taken.Perm
    (p.ledger.missed ++ p.ledger.skipped ++ p.ledger.passed ++ p.events.records)
  missed : p.ledger.missed = [] ∨
    eventsCapacity ≤ (p.ledger.skipped ++ p.ledger.passed ++ p.events.records).length
  skipped : ∀ event ∈ p.ledger.skipped, event.pid = 0
  passed : ∀ event ∈ p.ledger.passed, event.pid ≠ 0
  sent : (p.ledger.passed.map (stackInfo args)).Perm
    (p.senders ++ p.channel ++ p.ledger.received)
  collector : p.collector = Collector.collect env (p.ledger.received.map some)
  sunk : p.collector.sunk.Perm
    (p.sinks ++ p.ledger.undelivered ++ p.ledger.delivered.map Upload.symlists)
  delivered : ∀ u ∈ p.ledger.delivered, u.args = args

variable {env} {args : Args} {seen : List StacktraceEvent} {p : Profiler}

theorem Collector.sunk_prefix (c : Collector) (e : Option StackInfo) :
    c.sunk <+: (c.recv env e).sunk := by
  cases e with
  | none => exact List.prefix_rfl
  | some dataChunk =>
    by_cases hlen : c.buf.length < 200
    · rw [Collector.recv, if_pos hlen]
    · rw [Collector.recv, if_neg hlen]
      exact List.prefix_append _ _

theorem Accounts.start (args : Args) : Accounts env args [] (Profiler.start args) where
  configured := rfl
  recorded := .refl _
  missed := .inl rfl
  skipped := nofun
  passed := nofun
  sent := .refl _
  collector := rfl
  sunk := .refl _
  delivered := nofun

theorem perm_insert {α : Type*} (as bs cs : List α) :
    (as ++ bs ++ cs).Perm (as ++ cs ++ bs) := by
  rw [List.append_assoc, List.append_assoc]
  exact List.perm_append_comm.append_left as

theorem Accounts.sample (h : Accounts env args seen p) (ctx : PerfEvent) :
    Accounts env args (seen ++ [ctx.record]) (p.sample ctx) := by
  unfold Profiler.sample
  obtain ⟨events, he, hrecords⟩ | ⟨he, hfull⟩ := p.events.reserve_cases ctx.record
  · rw [he]
    refine { h with recorded := ?_, missed := h.missed.imp_right fun hx ↦ ?_ }
    · dsimp only
      rw [hrecords, ← List.append_assoc]
      exact h.recorded.append_right _
    · dsimp only
      rw [hrecords, ← List.append_assoc, List.length_append]
      exact hx.trans (Nat.le_add_right _ _)
  · rw [he]
    refine { h with recorded := ?_, missed := .inr ?_ }
    · refine (h.recorded.append_right _).trans ?_
      simpa only [List.append_assoc] using
        perm_insert p.ledger.missed (p.ledger.skipped ++ p.ledger.passed ++ p.events.records)
          [ctx.record]
    · rw [List.length_append, hfull]
      exact Nat.le_add_left _ _

theorem Accounts.submit (h : Accounts env args seen p) (slot : ℕ) :
    Accounts env args seen (p.submit slot) := by
  refine { h with recorded := ?_, missed := ?_ } <;> dsimp only [Profiler.submit] <;>
    rw [RingBuffer.records_submit]
  · exact h.recorded
  · exact h.missed

theorem Accounts.poll (h : Accounts env args seen p) : Accounts env args seen p.poll := by
  unfold Profiler.poll
  cases hc : p.events.consume with
  | none => exact h
  | some next =>
    obtain ⟨event, events⟩ := next
    have hrecords := RingBuffer.consume_records hc
    have hrecorded := h.recorded
    have hmissed := h.missed
    rw [hrecords] at hrecorded hmissed
    dsimp only
    by_cases hpid : event.pid = 0
    · rw [if_pos hpid]
      refine { h with recorded := ?_, missed := ?_, skipped := ?_ }
      · apply hrecorded.trans
        simpa only [List.append_assoc, List.singleton_append] using
          (perm_insert (p.ledger.missed ++ p.ledger.skipped) p.ledger.passed [event]).append_right
            events.records
      · simp only [List.length_append, List.length_cons, List.length_nil] at hmissed ⊢
        exact hmissed.imp_right fun hx ↦ by omega
      · exact List.forall_mem_append.mpr ⟨h.skipped, by simpa using hpid⟩
    · rw [if_neg hpid]
      refine { h with recorded := ?_, missed := ?_, passed := ?_, sent := ?_ }
      · simpa only [List.append_assoc, List.singleton_append] using hrecorded
      · simp only [List.length_append, List.length_cons, List.length_nil] at hmissed ⊢
        exact hmissed.imp_right fun hx ↦ by omega
      · exact List.forall_mem_append.mpr ⟨h.passed, by simpa using hpid⟩
      · rw [h.configured, List.map_append, List.map_singleton]
        apply (h.sent.append_right _).trans
        simpa only [List.append_assoc] using
          perm_insert p.senders (p.channel ++ p.ledger.received) [stackInfo args event]

theorem Accounts.send (h : Accounts env args seen p) (thread : ℕ) :
    Accounts env args seen (p.send thread) := by
  unfold Profiler.send
  cases hs : p.senders[thread]? with
  | none => exact h
  | some info =>
    obtain ⟨hlt, rfl⟩ := List.getElem?_eq_some_iff.mp hs
    refine { h with sent := h.sent.trans ?_ }
    dsimp only
    apply List.Perm.append_right
    refine ((List.getElem_cons_eraseIdx_perm hlt).symm.append_right p.channel).trans ?_
    rw [List.cons_append, ← List.append_assoc]
    exact (List.perm_append_singleton _ _).symm

theorem Accounts.recv (h : Accounts env args seen p) :
    Accounts env args seen (p.recv env) := by
  unfold Profiler.recv
  cases hc : p.channel with
  | nil => exact h
  | cons dataChunk channel =>
    have hsent := h.sent
    rw [hc] at hsent
    refine { h with sent := ?_, collector := ?_, sunk := ?_ }
    · apply hsent.trans
      simpa only [List.append_assoc, List.nil_append, List.cons_append] using
        (perm_insert p.senders (channel ++ p.ledger.received) [dataChunk]).symm
    · dsimp only
      rw [h.collector, List.map_append, List.map_singleton, Collector.collect_concat]
    · obtain ⟨started, hstarted⟩ := Collector.sunk_prefix p.collector (some dataChunk)
      dsimp only
      rw [← hstarted, List.drop_left]
      apply (h.sunk.append_right _).trans
      have hswap : (p.ledger.undelivered ++ p.ledger.delivered.map Upload.symlists ++ started).Perm
          (started ++ (p.ledger.undelivered ++ p.ledger.delivered.map Upload.symlists)) :=
        List.perm_append_comm
      simpa only [List.append_assoc] using hswap.append_left p.sinks

theorem Accounts.post (h : Accounts env args seen p) (sink : ℕ) (order : Arrangement)
    (utcNow dbNow : Timestamp) (arrives : Bool) :
    Accounts env args seen (p.post sink order utcNow dbNow arrives) := by
  unfold Profiler.post
  cases hs : p.sinks[sink]? with
  | none => exact h
  | some batch =>
    obtain ⟨hlt, rfl⟩ := List.getElem?_eq_some_iff.mp hs
    have hsunk := h.sunk.trans
      (((List.getElem_cons_eraseIdx_perm hlt).symm.append_right _).append_right _)
    rw [List.cons_append, List.cons_append] at hsunk
    replace hsunk := hsunk.trans (List.perm_append_singleton _ _).symm
    cases arrives with
    | true =>
      refine { h with sunk := ?_, delivered := ?_ }
      · simpa only [Ledger.post, List.append_assoc, List.map_append, List.map_singleton] using hsunk
      · exact List.forall_mem_append.mpr ⟨h.delivered, by simpa using h.configured⟩
    | false =>
      refine { h with sunk := hsunk.trans ?_ }
      simpa only [Ledger.post, List.append_assoc] using perm_insert
        (p.sinks.eraseIdx sink ++ p.ledger.undelivered) (p.ledger.delivered.map Upload.symlists)
        [p.sinks[sink]]

theorem taken_concat (steps : List ProfilerStep) (s : ProfilerStep) :
    taken (steps ++ [s]) = taken steps ++ taken [s] := List.filterMap_append

theorem Accounts.step (h : Accounts env args seen p) (s : ProfilerStep) :
    Accounts env args (seen ++ taken [s]) (p.step env s) := by
  cases s with
  | sample ctx => exact h.sample ctx
  | submit slot => exact (List.append_nil seen).symm ▸ h.submit slot
  | poll => exact (List.append_nil seen).symm ▸ h.poll
  | send thread => exact (List.append_nil seen).symm ▸ h.send thread
  | recv => exact (List.append_nil seen).symm ▸ h.recv
  | post sink order utcNow dbNow arrives =>
    exact (List.append_nil seen).symm ▸ h.post sink order utcNow dbNow arrives

theorem accounts_run (env : Externals) (args : Args) (steps : List ProfilerStep) :
    Accounts env args (taken steps) ((start args).run env steps) := by
  induction steps using List.reverseRecOn with
  | nil => exact .start args
  | append_singleton steps s ih =>
    rw [taken_concat, run, List.foldl_append]
    exact ih.step s

theorem survivors_sublist {α : Type} (l : List α) : (Collector.survivors l).Sublist l := by
  have hsub := (List.filter_sublist (l := l.zipIdx) (p := fun p ↦ p.2 % 201 ≠ 200)).map Prod.fst
  rwa [List.zipIdx_map_fst] at hsub

theorem chunks_map_some (chunks : List StackInfo) :
    Collector.chunks (chunks.map some) = chunks := by
  induction chunks with
  | nil => rfl
  | cons dataChunk chunks ih => exact congrArg (dataChunk :: ·) ih

theorem collect_batches (env : Externals) (chunks : List StackInfo) :
    (∀ batch ∈ (Collector.collect env (chunks.map some)).sunk, batch.length = 200) ∧
      (Collector.collect env (chunks.map some)).sunk.length = chunks.length / 201 := by
  induction chunks using List.reverseRecOn with
  | nil => exact ⟨nofun, rfl⟩
  | append_singleton chunks dataChunk ih =>
    obtain ⟨hfull, hlen⟩ := ih
    have hbuf := (Collector.collect_kept env (chunks.map some)).1
    rw [chunks_map_some] at hbuf
    rw [List.map_append, List.map_singleton, Collector.collect_concat, List.length_append,
      List.length_singleton, Collector.recv]
    by_cases hroom : (Collector.collect env (chunks.map some)).buf.length < 200
    · rw [if_pos hroom]
      refine ⟨hfull, hlen.trans ?_⟩
      omega
    · rw [if_neg hroom]
      refine ⟨List.forall_mem_append.mpr ⟨hfull, ?_⟩, ?_⟩
      · rw [List.forall_mem_singleton]
        omega
      · rw [List.length_append, List.length_singleton, hlen]
        omega

/-- However the kernel, the threads and the network take turns, each sample is at every
moment in exactly one place: it found the buffer full, was of no process, waits in the
buffer, with a thread or in the channel, or has reached the collecting thread, which posts
full batches and lets go of every 201st. -/
theorem every_sample_is_accounted_for (env : Externals) (args : Args)
    (steps : List ProfilerStep) :
    let p := (start args).run env steps
    p.Accounts env args (taken steps) ∧
      p.collector.kept = Collector.survivors (p.ledger.received.map (symbolize env)) ∧
      (∀ batch ∈ p.collector.sunk, batch.length = 200) ∧
      p.collector.sunk.length = p.ledger.received.length / 201 ∧
      p.collector.buf.length = p.ledger.received.length % 201 := by
  intro p
  have haccounts : p.Accounts env args (taken steps) := accounts_run env args steps
  have hbatches := collect_batches env p.ledger.received
  have hkept := Collector.collect_kept env (p.ledger.received.map some)
  rw [chunks_map_some] at hkept
  rw [haccounts.collector]
  exact ⟨haccounts, hkept.2, hbatches.1, hbatches.2, hkept.1⟩

end Profiler

def demoEvent : PerfEvent where
  currentPidTgid := 4294967296
  smpProcessorId := 0
  currentComm := (0, .replicate _ 0)
  kernelStack := (0, .replicate _ 0)
  userStack := (8, .replicate _ 0)

end Sto
