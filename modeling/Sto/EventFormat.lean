import Sto.Sampling
import Sto.Library.ByteFormat

namespace Sto

open Library

namespace EventFormat

def u8 : ByteFormat UInt8 :=
  .word 1 UInt8.toNat UInt8.ofNat UInt8.toNat_lt (fun _ ↦ UInt8.ofNat_toNat)
    fun _ h ↦ UInt8.toNat_ofNat_of_lt h

def i8 : ByteFormat Int8 := u8.via Int8.toUInt8 UInt8.toInt8 (fun _ ↦ rfl) fun _ ↦ rfl

def u32 : ByteFormat UInt32 :=
  .word 4 UInt32.toNat UInt32.ofNat UInt32.toNat_lt (fun _ ↦ UInt32.ofNat_toNat)
    fun _ h ↦ UInt32.toNat_ofNat_of_lt h

def i32 : ByteFormat Int32 := u32.via Int32.toUInt32 UInt32.toInt32 (fun _ ↦ rfl) fun _ ↦ rfl

def u64 : ByteFormat UInt64 :=
  .word 8 UInt64.toNat UInt64.ofNat UInt64.toNat_lt (fun _ ↦ UInt64.ofNat_toNat)
    fun _ h ↦ UInt64.toNat_ofNat_of_lt h

/-- The fields in their order, as the kernel and the program both have them in memory. -/
def stacktraceEvent : ByteFormat StacktraceEvent :=
  (u32.seq <| u32.seq <| (i8.array taskCommLen).seq <| i32.seq <| i32.seq <|
    (u64.array maxStackDepth).seq (u64.array maxStackDepth)).via
    (fun event ↦ (event.pid, event.cpuId, event.comm, event.kstackSz, event.ustackSz,
      event.kstack, event.ustack))
    (fun fields ↦ ⟨fields.1, fields.2.1, fields.2.2.1, fields.2.2.2.1, fields.2.2.2.2.1,
      fields.2.2.2.2.2.1, fields.2.2.2.2.2.2⟩)
    (fun _ ↦ rfl) fun _ ↦ rfl

def fields : List (ℕ × ℕ) :=
  [(4, 4), (4, 4), (taskCommLen, 1), (4, 4), (4, 4), (maxStackDepth * 8, 8), (maxStackDepth * 8, 8)]

-- one after the other they are aligned as they have to be, so that nothing is put between them
example : ∀ i < fields.length,
    ((fields.take i).map Prod.fst).sum % ((fields.map Prod.snd).getD i 1) = 0 := by decide

end EventFormat

def StacktraceEvent.default : StacktraceEvent where
  pid := 0
  cpuId := 0
  comm := .replicate taskCommLen 0
  kstackSz := 0
  ustackSz := 0
  kstack := .replicate maxStackDepth 0
  ustack := .replicate maxStackDepth 0

/-- What `plain::copy_from_bytes` promises: it fails on fewer bytes than the value has, and
else puts the first of them in its place. -/
structure CopiesBytes (copyFromBytes : StacktraceEvent → List UInt8 → Option StacktraceEvent) :
    Prop where
  tooShort : ∀ event data, data.length < sizeofStacktraceEvent → copyFromBytes event data = none
  copied : ∀ event data, sizeofStacktraceEvent ≤ data.length → ∃ read,
    copyFromBytes event data = some read ∧
      EventFormat.stacktraceEvent.write read = data.take sizeofStacktraceEvent

/-- The profiler with the records in its ring buffer as bytes. The buffer of `program` is out
of use. -/
structure RawProfiler where
  events : RingBuffer (List UInt8) eventsCapacity
  program : Profiler

def RawProfiler.start (args : Args) : RawProfiler := ⟨.empty, .start args⟩

def Profiler.raw (p : Profiler) : RawProfiler :=
  ⟨p.events.map EventFormat.stacktraceEvent.write, { p with events := .empty }⟩

section Raw

variable (copyFromBytes : StacktraceEvent → List UInt8 → Option StacktraceEvent)

/-- The callback of the ring buffer. An error is a panic, with the text of the `expect`. -/
def callback (p : Profiler) (data : List UInt8) : Except String Profiler :=
  match copyFromBytes .default data with
  | none => .error "Event data buffer was too short"
  | some event =>
    if event.pid = 0 then
      .ok { p with ledger := { p.ledger with skipped := p.ledger.skipped ++ [event] } }
    else
      .ok
        { p with
          senders := p.senders ++ [Profiler.stackInfo p.args event]
          ledger := { p.ledger with passed := p.ledger.passed ++ [event] } }

namespace RawProfiler

def sample (p : RawProfiler) (ctx : PerfEvent) : RawProfiler :=
  match p.events.reserve (EventFormat.stacktraceEvent.write ctx.record) with
  | some events => { p with events := events }
  | none =>
    { p with
      program :=
        { p.program with
          ledger := { p.program.ledger with missed := p.program.ledger.missed ++ [ctx.record] } } }

def poll (p : RawProfiler) : Except String RawProfiler :=
  match p.events.consume with
  | none => .ok p
  | some (data, events) => (callback copyFromBytes p.program data).map fun program ↦
    ⟨events, program⟩

variable (env : Externals)

def step (p : RawProfiler) : ProfilerStep → Except String RawProfiler
  | .sample ctx => .ok (p.sample ctx)
  | .submit slot => .ok { p with events := p.events.submit slot }
  | .poll => p.poll copyFromBytes
  | .send thread => .ok { p with program := p.program.send thread }
  | .recv => .ok { p with program := p.program.recv env }
  | .post sink order utcNow dbNow arrives =>
    .ok { p with program := p.program.post sink order utcNow dbNow arrives }

def run (p : RawProfiler) (steps : List ProfilerStep) : Except String RawProfiler :=
  steps.foldlM (step copyFromBytes env) p

end RawProfiler

variable {copyFromBytes} {env : Externals} (h : CopiesBytes copyFromBytes)

include h

theorem CopiesBytes.write (event : StacktraceEvent) :
    copyFromBytes .default (EventFormat.stacktraceEvent.write event) = some event := by
  have hlen : (EventFormat.stacktraceEvent.write event).length = sizeofStacktraceEvent :=
    EventFormat.stacktraceEvent.length_write event
  obtain ⟨read, hread, hwrite⟩ := h.copied .default _ hlen.ge
  rw [← hlen, List.take_length] at hwrite
  rw [hread, ← EventFormat.stacktraceEvent.read_write read, hwrite,
    EventFormat.stacktraceEvent.read_write]

theorem CopiesBytes.callback_write (p : Profiler) (event : StacktraceEvent) :
    callback copyFromBytes p (EventFormat.stacktraceEvent.write event) =
      if event.pid = 0 then
        .ok { p with ledger := { p.ledger with skipped := p.ledger.skipped ++ [event] } }
      else
        .ok
          { p with
            senders := p.senders ++ [Profiler.stackInfo p.args event]
            ledger := { p.ledger with passed := p.ledger.passed ++ [event] } } := by
  rw [callback, h.write]

theorem CopiesBytes.panics_iff (p : Profiler) (data : List UInt8) :
    callback copyFromBytes p data = .error "Event data buffer was too short" ↔
      data.length < sizeofStacktraceEvent := by
  by_cases hlen : data.length < sizeofStacktraceEvent
  · rw [callback, h.tooShort .default data hlen]
    exact iff_of_true rfl hlen
  · obtain ⟨read, hread, _⟩ := h.copied .default data (Nat.le_of_not_lt hlen)
    rw [callback, hread]
    refine iff_of_false ?_ hlen
    by_cases hpid : read.pid = 0 <;> simp [hpid]

theorem Profiler.raw_poll (p : Profiler) : p.raw.poll copyFromBytes = .ok p.poll.raw := by
  rw [RawProfiler.poll, Profiler.raw, RingBuffer.map_consume, Profiler.poll]
  cases p.events.consume with
  | none => rfl
  | some next =>
    obtain ⟨event, events⟩ := next
    dsimp only [Option.map_some]
    rw [h.callback_write]
    by_cases hpid : event.pid = 0
    · rw [if_pos hpid, if_pos hpid]
      rfl
    · rw [if_neg hpid, if_neg hpid]
      rfl

omit h in
theorem Profiler.raw_sample (p : Profiler) (ctx : PerfEvent) :
    p.raw.sample ctx = (p.sample ctx).raw := by
  rw [RawProfiler.sample, Profiler.raw, RingBuffer.map_reserve, Profiler.sample]
  cases p.events.reserve ctx.record <;> rfl

theorem Profiler.raw_step (p : Profiler) (s : ProfilerStep) :
    p.raw.step copyFromBytes env s = .ok (p.step env s).raw := by
  cases s with
  | sample ctx => exact congrArg Except.ok (p.raw_sample ctx)
  | submit slot =>
    rw [RawProfiler.step, Profiler.raw, RingBuffer.map_submit]
    rfl
  | poll => exact p.raw_poll h
  | send thread =>
    rw [RawProfiler.step, Profiler.step, Profiler.raw, Profiler.send, Profiler.send]
    cases p.senders[thread]? <;> rfl
  | recv =>
    obtain ⟨args, events, senders, channel, collector, sinks, ledger⟩ := p
    cases channel <;> rfl
  | post sink order utcNow dbNow arrives =>
    rw [RawProfiler.step, Profiler.step, Profiler.raw, Profiler.post, Profiler.post]
    cases p.sinks[sink]? <;> rfl

theorem Profiler.raw_run (p : Profiler) (steps : List ProfilerStep) :
    p.raw.run copyFromBytes env steps = .ok (p.run env steps).raw := by
  induction steps generalizing p with
  | nil => rfl
  | cons s steps ih =>
    rw [RawProfiler.run, List.foldlM_cons, p.raw_step h s]
    exact ih (p.step env s)

/-- Nothing of a sample is lost or mixed up on its way out of the kernel: the callback panics on
a buffer shorter than a record and on no other, as many bytes as a record has are those of one
record, and a profiler that finds bytes in its buffer runs as one that finds records. -/
theorem event_format (env : Externals) (args : Args) :
    (∀ p data, callback copyFromBytes p data = .error "Event data buffer was too short" ↔
      data.length < sizeofStacktraceEvent) ∧
    (∀ data : List UInt8, data.length = sizeofStacktraceEvent →
      ∃! event, EventFormat.stacktraceEvent.write event = data) ∧
    ∀ steps, (RawProfiler.start args).run copyFromBytes env steps =
      .ok ((Profiler.start args).run env steps).raw := by
  refine ⟨h.panics_iff, fun data hlen ↦ ?_, Profiler.raw_run h (.start args)⟩
  refine ⟨EventFormat.stacktraceEvent.read data, ?_, fun event hevent ↦ ?_⟩
  · exact EventFormat.stacktraceEvent.write_read data hlen
  · rw [← hevent, EventFormat.stacktraceEvent.read_write]

end Raw

def demoCopy (_ : StacktraceEvent) (data : List UInt8) : Option StacktraceEvent :=
  if data.length < sizeofStacktraceEvent then none
  else some (EventFormat.stacktraceEvent.read (data.take sizeofStacktraceEvent))

theorem demoCopy_copies : CopiesBytes demoCopy where
  tooShort _ _ hlen := if_pos hlen
  copied _ data hlen := by
    refine ⟨EventFormat.stacktraceEvent.read (data.take sizeofStacktraceEvent), ?_, ?_⟩
    · exact if_neg (Nat.not_lt.mpr hlen)
    · apply EventFormat.stacktraceEvent.write_read
      rw [List.length_take]
      exact min_eq_left hlen

theorem event_format_demo :
    callback demoCopy (.start demoUpload.args) [] = .error "Event data buffer was too short" ∧
    (∃! event, EventFormat.stacktraceEvent.write event = .replicate sizeofStacktraceEvent 1) ∧
    (RawProfiler.start demoUpload.args).run demoCopy demoExternals
        [.sample demoEvent, .submit 0, .poll] =
      .ok ((Profiler.start demoUpload.args).run demoExternals
        [.sample demoEvent, .submit 0, .poll]).raw := by
  obtain ⟨hpanics, hone, hrun⟩ := event_format demoCopy_copies demoExternals demoUpload.args
  exact ⟨(hpanics _ _).mpr (by decide), hone _ List.length_replicate, hrun _⟩

end Sto
