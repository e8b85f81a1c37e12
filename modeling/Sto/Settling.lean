import Sto.Deployment
import Sto.Library.Progress

namespace Sto

open Library

namespace Profiler

variable {env : Externals} {p : Profiler}

/-- What is on its way counts the more the further it has to go, from the eight of a record
that is being written to the four of a batch that is not posted yet. At the server a batch
counts three, for its transactions. -/
def work (p : Profiler) : ℕ :=
  7 * p.events.records.length + p.events.unsubmitted + 6 * p.senders.length +
    5 * p.channel.length + 4 * p.sinks.length

/-- Nothing is on its way to the server. -/
structure Drained (p : Profiler) : Prop where
  events : p.events.records = []
  senders : p.senders = []
  channel : p.channel = []
  sinks : p.sinks = []

theorem Drained.of_work (h : p.work = 0) : p.Drained := by
  unfold work at h
  refine ⟨?_, ?_, ?_, ?_⟩ <;> apply List.length_eq_zero_iff.mp <;> omega

theorem Drained.work_eq (h : p.Drained) : p.work = 0 := by
  have hslots : p.events.unsubmitted ≤ p.events.records.length := by
    rw [RingBuffer.records, List.length_map]
    exact List.countP_le_length
  rw [h.events] at hslots
  rw [work, h.events, h.senders, h.channel, h.sinks, Nat.le_zero.mp hslots]
  rfl

theorem work_sample (ctx : PerfEvent) : (p.sample ctx).work ≤ p.work + 8 := by
  unfold sample
  cases he : p.events.reserve ctx.record with
  | none => exact Nat.le_add_right _ _
  | some events =>
    have hunsubmitted := RingBuffer.reserve_unsubmitted he
    have hrecords : events.records = p.events.records ++ [ctx.record] := by
      obtain ⟨events', he', hrecords⟩ | ⟨he', _⟩ := p.events.reserve_cases ctx.record
      · rw [he, Option.some_inj] at he'
        rw [he', hrecords]
      · rw [he] at he'
        cases he'
    simp only [work, hrecords, hunsubmitted, List.length_append, List.length_singleton]
    omega

theorem submit_work (slot : ℕ) : p.submit slot = p ∨ (p.submit slot).work < p.work := by
  obtain he | hlt := p.events.submit_cases slot
  · exact .inl (by rw [submit, he])
  · refine .inr ?_
    simp only [work, submit, RingBuffer.records_submit]
    omega

theorem poll_work : p.poll = p ∨ p.poll.work < p.work := by
  unfold poll
  cases hc : p.events.consume with
  | none => exact .inl rfl
  | some next =>
    have hrecords := congrArg List.length (RingBuffer.consume_records hc)
    have hunsubmitted := RingBuffer.consume_unsubmitted hc
    rw [List.length_cons] at hrecords
    refine .inr ?_
    dsimp only
    by_cases hpid : next.1.pid = 0
    · rw [if_pos hpid]
      simp only [work]
      omega
    · rw [if_neg hpid]
      simp only [work, List.length_append, List.length_singleton]
      omega

theorem send_work (thread : ℕ) : p.send thread = p ∨ (p.send thread).work < p.work := by
  unfold send
  cases hs : p.senders[thread]? with
  | none => exact .inl rfl
  | some info =>
    have hlt := (List.getElem?_eq_some_iff.mp hs).1
    refine .inr ?_
    simp only [work, List.length_append, List.length_singleton, List.length_eraseIdx_of_lt hlt]
    omega

theorem recv_work : p.recv env = p ∨ (p.recv env).work < p.work := by
  unfold recv
  cases hc : p.channel with
  | nil => exact .inl rfl
  | cons dataChunk channel =>
    have hstarted : ((p.collector.recv env (some dataChunk)).sunk.drop
        p.collector.sunk.length).length ≤ 1 := by
      rw [List.length_drop, Collector.recv]
      split <;> simp
    refine .inr ?_
    simp only [work, hc, List.length_append, List.length_cons]
    omega

theorem post_work (sink : ℕ) (order : Arrangement) (utcNow dbNow : Timestamp) (arrives : Bool) :
    (p.post sink order utcNow dbNow arrives = p ∧
        p.arriving (.post sink order utcNow dbNow arrives) = none) ∨
      (p.post sink order utcNow dbNow arrives).work +
        3 * (p.arriving (.post sink order utcNow dbNow arrives)).toList.length < p.work := by
  unfold post
  cases hs : p.sinks[sink]? with
  | none =>
    refine .inl ⟨rfl, ?_⟩
    cases arrives with
    | true => rw [arriving, hs, Option.map_none]
    | false => rfl
  | some batch =>
    have hlt := (List.getElem?_eq_some_iff.mp hs).1
    have harriving : (p.arriving (.post sink order utcNow dbNow arrives)).toList.length ≤ 1 :=
      Option.length_toList_le
    refine .inr ?_
    simp only [work, List.length_eraseIdx_of_lt hlt]
    omega

/-- No step but a perf event adds to what is on its way, and each that does something takes
from it, a batch that arrives included. -/
theorem step_work (env : Externals) (p : Profiler) {s : ProfilerStep}
    (hs : ∀ ctx, s ≠ .sample ctx) :
    (p.step env s = p ∧ p.arriving s = none) ∨
      (p.step env s).work + 3 * (p.arriving s).toList.length < p.work := by
  cases s with
  | sample ctx => exact absurd rfl (hs ctx)
  | submit slot => exact (p.submit_work slot).imp (⟨·, rfl⟩) id
  | poll => exact p.poll_work.imp (⟨·, rfl⟩) id
  | send thread => exact (p.send_work thread).imp (⟨·, rfl⟩) id
  | recv => exact p.recv_work.imp (⟨·, rfl⟩) id
  | post sink order utcNow dbNow arrives => exact p.post_work sink order utcNow dbNow arrives

theorem Drained.of_idle {order : Arrangement} {utcNow dbNow : Timestamp} {arrives : Bool}
    (hsubmit : p.submit 0 = p) (hpoll : p.poll = p) (hsend : p.send 0 = p)
    (hrecv : p.recv env = p) (hpost : p.post 0 order utcNow dbNow arrives = p) : p.Drained where
  events := by
    apply RingBuffer.records_eq_nil (congrArg Profiler.events hsubmit)
    cases hc : p.events.consume with
    | none => rfl
    | some next =>
      have hrecords := congrArg List.length (RingBuffer.consume_records hc)
      have hevents : p.poll.events = next.2 := by
        rw [poll, hc]
        dsimp only
        split <;> rfl
      rw [hpoll] at hevents
      rw [hevents, List.length_cons] at hrecords
      omega
  senders := by
    cases hs : p.senders with
    | nil => rfl
    | cons info senders =>
      have hrest := congrArg Profiler.senders hsend
      rw [send, hs] at hrest
      exact absurd hrest (List.cons_ne_self info senders).symm
  channel := by
    cases hc : p.channel with
    | nil => rfl
    | cons dataChunk channel =>
      have hrest := congrArg Profiler.channel hrecv
      rw [recv, hc] at hrest
      exact absurd hrest (List.cons_ne_self dataChunk channel).symm
  sinks := by
    cases hs : p.sinks with
    | nil => rfl
    | cons batch sinks =>
      have hrest := congrArg Profiler.sinks hpost
      rw [post, hs] at hrest
      exact absurd hrest (List.cons_ne_self batch sinks).symm

theorem Drained.ledger {args : Args} {steps : List ProfilerStep}
    (h : ((start args).run env steps).Drained) :
    let p := (start args).run env steps
    (taken steps).Perm (p.ledger.missed ++ p.ledger.skipped ++ p.ledger.passed) ∧
      p.ledger.delivered.length + p.ledger.undelivered.length = p.ledger.passed.length / 201 ∧
      p.collector.buf.length = p.ledger.passed.length % 201 := by
  intro p
  have haccounts : p.Accounts env args (taken steps) := accounts_run env args steps
  have hrecorded := haccounts.recorded
  have hsent := haccounts.sent.length_eq
  have hsunk := haccounts.sunk.length_eq
  rw [h.events, List.append_nil] at hrecorded
  rw [h.senders, h.channel, List.length_map, List.nil_append, List.nil_append] at hsent
  rw [h.sinks, List.nil_append, List.length_append, List.length_map] at hsunk
  have hbatches := (collect_batches env p.ledger.received).2
  have hbuf := (Collector.collect_kept env (p.ledger.received.map some)).1
  rw [← haccounts.collector] at hbatches hbuf
  rw [chunks_map_some] at hbuf
  refine ⟨hrecorded, ?_, ?_⟩
  · omega
  · rw [hbuf, hsent]

theorem Accounts.delivered_length_le {args : Args} {seen : List StacktraceEvent}
    (h : Accounts env args seen p) : p.ledger.delivered.length ≤ seen.length / 201 := by
  have hrecorded := h.recorded.length_eq
  have hsent := h.sent.length_eq
  have hsunk := h.sunk.length_eq
  have hbatches := (collect_batches env p.ledger.received).2
  rw [← h.collector] at hbatches
  simp only [List.length_append, List.length_map] at hrecorded hsent hsunk
  omega

end Profiler

namespace Deployment

variable {pg : Postgres} {env : Externals} {d : Deployment}

def work (pg : Postgres) (env : Externals) (d : Deployment) : ℕ :=
  (d.profilers.map Profiler.work).sum + d.server.remaining (program pg env)

def samples : DeploymentStep → Bool
  | .client _ (.sample _) => true
  | _ => false

theorem remaining_news (pg : Postgres) (env : Externals) (s : System Upload Db SqlError)
    (news : List Upload) :
    (⟨s.store, s.jobs ++ news.map Job.start⟩ : System Upload Db SqlError).remaining
      (program pg env) = s.remaining (program pg env) + 3 * news.length := by
  rw [System.remaining_start]
  apply congrArg
  induction news with
  | nil => rfl
  | cons u news ih =>
    have hthree : (program pg env u).length = 3 := rfl
    rw [List.map_cons, List.sum_cons, ih, hthree, List.length_cons, Nat.mul_add, Nat.mul_one,
      Nat.add_comm]

theorem client_work (pg : Postgres) (env : Externals) (d : Deployment) (i : ℕ)
    (s : ProfilerStep) : d.client env i s = d ∨
      ∃ p : Profiler, ∃ rest, work pg env d = p.work + rest ∧
      work pg env (d.client env i s) =
        (p.step env s).work + 3 * (p.arriving s).toList.length + rest ∧
      (p.step env s = p → p.arriving s = none → d.client env i s = d) := by
  unfold client
  cases hp : d.profilers[i]? with
  | none => exact .inl rfl
  | some p =>
    obtain ⟨as, bs, hl, hset⟩ := System.exists_split hp
    refine .inr ⟨p, (as.map Profiler.work).sum + (bs.map Profiler.work).sum +
      d.server.remaining (program pg env), ?_, ?_, ?_⟩
    · rw [work, hl, List.map_append, List.map_cons, List.sum_append, List.sum_cons]
      omega
    · dsimp only
      rw [work, hset, List.map_append, List.map_cons, List.sum_append, List.sum_cons,
        remaining_news]
      omega
    · intro hsame harriving
      dsimp only
      rw [hset, hsame, harriving, ← hl]
      change (⟨d.profilers, ⟨d.server.store, d.server.jobs ++ []⟩⟩ : Deployment) = d
      rw [List.append_nil]

theorem usesUp (pg : Postgres) (env : Externals) :
    UsesUp (step pg env) (fun s ↦ samples s = false) (work pg env) := by
  intro d s hs
  cases s with
  | serve k =>
    obtain he | hlt := System.step_remaining (program pg env) d.server k
    · refine .inl ?_
      change (⟨d.profilers, d.server.step (program pg env) k⟩ : Deployment) = d
      rw [he]
    · exact .inr (Nat.add_lt_add_left hlt _)
  | client i s =>
    have hquiet : ∀ ctx, s ≠ .sample ctx := by
      rintro ctx rfl
      cases hs
    change d.client env i s = d ∨ work pg env (d.client env i s) < work pg env d
    obtain he | ⟨p, rest, hwork, hwork', hsame⟩ := client_work pg env d i s
    · exact .inl he
    · obtain ⟨hidle, hnone⟩ | hlt := p.step_work env hquiet
      · exact .inl (hsame hidle hnone)
      · exact .inr (by omega)

theorem work_step (pg : Postgres) (env : Externals) (d : Deployment) (s : DeploymentStep) :
    work pg env (d.step pg env s) ≤ work pg env d + if samples s then 8 else 0 := by
  cases hs : samples s with
  | false =>
    obtain he | hlt := usesUp pg env d s hs
    · exact (congrArg (work pg env) he).le
    · exact hlt.le
  | true =>
    obtain ⟨i, ctx, rfl⟩ : ∃ i ctx, s = .client i (.sample ctx) := by
      cases s with
      | serve k => cases hs
      | client i s =>
        cases s with
        | sample ctx => exact ⟨i, ctx, rfl⟩
        | _ => cases hs
    change work pg env (d.client env i (.sample ctx)) ≤ work pg env d + 8
    obtain he | ⟨p, rest, hwork, hwork', _⟩ := client_work pg env d i (.sample ctx)
    · rw [he]
      exact Nat.le_add_right _ _
    · have hsample : (p.step env (.sample ctx)).work ≤ p.work + 8 := p.work_sample ctx
      have hnone : p.arriving (.sample ctx) = none := rfl
      rw [hwork', hwork, hnone]
      simp only [Option.toList_none, List.length_nil]
      omega

theorem work_deployed (pg : Postgres) (env : Externals) (argss : List Args)
    (steps : List DeploymentStep) :
    work pg env (deployed pg env argss steps) ≤ 8 * steps.countP samples := by
  induction steps using List.reverseRecOn with
  | nil =>
    have hnone : ((argss.map Profiler.start).map Profiler.work).sum = 0 := by
      rw [List.sum_eq_zero_iff_forall_eq_nat, List.forall_mem_map, List.forall_mem_map]
      exact fun _ _ ↦ rfl
    exact Nat.le_of_eq hnone
  | append_singleton steps s ih =>
    have hstep := work_step pg env (deployed pg env argss steps) s
    rw [deployed, run_append, List.countP_append, List.countP_singleton, Nat.mul_add]
    apply hstep.trans
    cases samples s with
    | false => exact ih
    | true => exact Nat.add_le_add_right ih 8

/-- A stretch of a run in which no perf event fires and everyone gets a turn, in whatever
order and with whatever else in between: in each client the writer of the oldest record, the
reader of the ring buffer, a thread with a sample to send, the collecting thread and a sink
thread, and at the server each request. -/
structure Round (clients requests : ℕ) (round : List DeploymentStep) : Prop where
  quiet : ∀ s ∈ round, samples s = false
  submits : ∀ i < clients, .client i (.submit 0) ∈ round
  polls : ∀ i < clients, .client i .poll ∈ round
  sends : ∀ i < clients, .client i (.send 0) ∈ round
  receives : ∀ i < clients, .client i .recv ∈ round
  posts : ∀ i < clients, ∃ order utcNow dbNow arrives,
    .client i (.post 0 order utcNow dbNow arrives) ∈ round
  serves : ∀ k < requests, .serve k ∈ round

theorem step_of_idle {i : ℕ} {p : Profiler} {s : ProfilerStep} (hp : d.profilers[i]? = some p)
    (h : d.step pg env (.client i s) = d) : p.step env s = p := by
  have hprofilers := congrArg (fun d ↦ d.profilers[i]?) h
  change (d.client env i s).profilers[i]? = d.profilers[i]? at hprofilers
  rw [client, hp] at hprofilers
  dsimp only at hprofilers
  rw [List.getElem?_set_self (List.getElem?_eq_some_iff.mp hp).1, Option.some_inj] at hprofilers
  exact hprofilers

/-- Nothing is on its way, and all requests have ended. -/
structure Settled (pg : Postgres) (env : Externals) (d : Deployment) : Prop where
  drained : ∀ p ∈ d.profilers, p.Drained
  ended : ∀ j ∈ d.server.jobs, j.next (program pg env) = none

theorem Settled.work_eq (h : d.Settled pg env) : work pg env d = 0 := by
  have hprofilers : (d.profilers.map Profiler.work).sum = 0 := by
    rw [List.sum_eq_zero_iff_forall_eq_nat, List.forall_mem_map]
    exact fun p hp ↦ (h.drained p hp).work_eq
  rw [work, hprofilers, Nat.zero_add]
  exact System.remaining_eq_zero.mpr h.ended

theorem Settled.of_work (h : work pg env d = 0) : d.Settled pg env := by
  obtain ⟨hprofilers, hserver⟩ := Nat.add_eq_zero_iff.mp h
  refine ⟨fun p hp ↦ ?_, System.remaining_eq_zero.mp hserver⟩
  have hall := List.sum_eq_zero_iff_forall_eq_nat.mp hprofilers
  exact .of_work (hall _ (List.mem_map_of_mem hp))

theorem Round.settled {clients requests : ℕ} {round : List DeploymentStep}
    (h : Round clients requests round) (hclients : d.profilers.length ≤ clients)
    (hrequests : d.uploads.length ≤ requests)
    (hidle : ∀ s ∈ round, d.step pg env s = d) : d.Settled pg env where
  drained p hp := by
    obtain ⟨i, hi⟩ := List.mem_iff_getElem?.mp hp
    have hlt : i < clients := (List.getElem?_eq_some_iff.mp hi).1.trans_le hclients
    obtain ⟨order, utcNow, dbNow, arrives, hpost⟩ := h.posts i hlt
    exact .of_idle (step_of_idle hi (hidle _ (h.submits i hlt)))
      (step_of_idle hi (hidle _ (h.polls i hlt))) (step_of_idle hi (hidle _ (h.sends i hlt)))
      (step_of_idle hi (hidle _ (h.receives i hlt))) (step_of_idle hi (hidle _ hpost))
  ended j hj := by
    obtain ⟨k, hk⟩ := List.mem_iff_getElem?.mp hj
    have hlt : k < requests := by
      apply lt_of_lt_of_le _ hrequests
      rw [uploads, List.length_map]
      exact (List.getElem?_eq_some_iff.mp hk).1
    exact System.next_of_idle (congrArg Deployment.server (hidle _ (h.serves k hlt))) hk

theorem settled_deployed (pg : Postgres) (env : Externals) (argss : List Args)
    {steps : List DeploymentStep} {rounds : List (List DeploymentStep)}
    (hrounds : ∀ round ∈ rounds, Round argss.length
      (deployed pg env argss (steps ++ rounds.flatten)).uploads.length round)
    (hlen : 8 * steps.countP samples ≤ rounds.length) :
    (deployed pg env argss (steps ++ rounds.flatten)).Settled pg env := by
  have hrun : ∀ later, later.foldl (step pg env) (deployed pg env argss steps) =
      deployed pg env argss (steps ++ later) := fun later ↦ (run_append steps later).symm
  have hsettles : work pg env (rounds.flatten.foldl (step pg env)
      (deployed pg env argss steps)) = 0 := by
    refine (usesUp pg env).settles (fun round hround ↦ (hrounds round hround).quiet) ?_
      ((work_deployed pg env argss steps).trans hlen)
    intro done round rest hsplit hidle
    rw [hrun] at hidle ⊢
    have hround : round ∈ rounds := by
      rw [hsplit]
      exact List.mem_append_right _ List.mem_cons_self
    apply Settled.work_eq
    apply (hrounds round hround).settled _ _ hidle
    · rw [profilers_eq, List.length_map, List.length_zipIdx]
    · obtain ⟨news, huploads⟩ :=
        uploads_grow pg env argss (steps ++ done.flatten) (round ++ rest.flatten)
      have hflatten : steps ++ done.flatten ++ (round ++ rest.flatten) =
          steps ++ rounds.flatten := by
        rw [hsplit, List.flatten_append, List.flatten_cons, List.append_assoc]
      rw [← hflatten, huploads, List.length_append]
      exact Nat.le_add_right _ _
  rw [hrun] at hsettles
  exact .of_work hsettles

theorem taken_quiet {later : List DeploymentStep} (h : ∀ s ∈ later, samples s = false)
    (steps : List DeploymentStep) (i : ℕ) :
    Profiler.taken (stepsOf i (steps ++ later)) = Profiler.taken (stepsOf i steps) := by
  have hnone : Profiler.taken (stepsOf i later) = [] := by
    rw [Profiler.taken, stepsOf, List.filterMap_filterMap, List.filterMap_eq_nil_iff]
    intro s hs
    have hquiet := h s hs
    cases s with
    | serve k => rfl
    | client j s =>
      by_cases hji : j = i
      · cases s with
        | sample ctx => cases hquiet
        | _ => simp [hji]
      · simp [hji]
  rw [stepsOf_append, Profiler.taken, List.filterMap_append, ← Profiler.taken, ← Profiler.taken,
    hnone, List.append_nil]

theorem quiet_rounds {clients requests : ℕ} {rounds : List (List DeploymentStep)}
    (h : ∀ round ∈ rounds, Round clients requests round) :
    ∀ s ∈ rounds.flatten, samples s = false := by
  intro s hs
  obtain ⟨round, hround, hs⟩ := List.mem_flatten.mp hs
  exact (h round hround).quiet s hs

/-- When no more perf events fire, everything comes to an end: after as many rounds as there
is work, all samples have gone the way they can go, batches of 200 out of every 201 that were
not skipped have been posted and what is over stays in the collecting thread for good, all
requests have ended, and nothing moves any more. -/
theorem deployments_settle (pg : Postgres) (env : Externals) (argss : List Args)
    (steps : List DeploymentStep) (rounds : List (List DeploymentStep))
    (hrounds : ∀ round ∈ rounds, Round argss.length
      (deployed pg env argss (steps ++ rounds.flatten)).uploads.length round)
    (hlen : 8 * steps.countP samples ≤ rounds.length) :
    let d := deployed pg env argss (steps ++ rounds.flatten)
    d.Settled pg env ∧
      (∀ later, (∀ s ∈ later, samples s = false) → d.run pg env later = d) ∧
      ∀ i p, d.profilers[i]? = some p →
        (Profiler.taken (stepsOf i steps)).Perm
          (p.ledger.missed ++ p.ledger.skipped ++ p.ledger.passed) ∧
        p.ledger.delivered.length + p.ledger.undelivered.length = p.ledger.passed.length / 201 ∧
        p.collector.buf.length = p.ledger.passed.length % 201 := by
  intro d
  have hsettled : d.Settled pg env := settled_deployed pg env argss hrounds hlen
  refine ⟨hsettled, fun later hlater ↦ (usesUp pg env).rests hlater hsettled.work_eq, ?_⟩
  intro i p hp
  have hdrained := hsettled.drained p (List.mem_of_getElem? hp)
  rw [profilers_deployed] at hp
  obtain ⟨args, _, rfl⟩ := Option.map_eq_some_iff.mp hp
  have hledger := hdrained.ledger
  rw [taken_quiet (quiet_rounds hrounds)] at hledger
  exact hledger

def demoRound : List DeploymentStep :=
  [.client 0 (.submit 0), .client 0 .poll, .client 0 (.send 0), .client 0 .recv,
    .client 0 (.post 0 .asIs 0 0 true), .serve 0]

theorem demo_uploads_le {steps : List DeploymentStep}
    (h : (Profiler.taken (stepsOf 0 steps)).length ≤ 201) :
    (deployed lenientPostgres demoMachine [demoUpload.args] steps).uploads.length ≤ 1 := by
  have haccounts := Profiler.accounts_run demoMachine demoUpload.args (stepsOf 0 steps)
  have hdelivered : (deployed lenientPostgres demoMachine [demoUpload.args] steps).delivered =
      ((Profiler.start demoUpload.args).run demoMachine (stepsOf 0 steps)).ledger.delivered := by
    rw [delivered, profilers_eq]
    exact List.append_nil _
  rw [(uploads_deployed _ _ _ _).length_eq, hdelivered]
  have hle := haccounts.delivered_length_le
  omega

theorem round_demoRound {requests : ℕ} (h : requests ≤ 1) : Round 1 requests demoRound := by
  have hzero : ∀ i < 1, i = 0 := fun i hi ↦ Nat.lt_one_iff.mp hi
  refine ⟨by decide, fun i hi ↦ ?_, fun i hi ↦ ?_, fun i hi ↦ ?_, fun i hi ↦ ?_,
    fun i hi ↦ ⟨.asIs, 0, 0, true, ?_⟩, fun k hk ↦ ?_⟩
  · simp [hzero i hi, demoRound]
  · simp [hzero i hi, demoRound]
  · simp [hzero i hi, demoRound]
  · simp [hzero i hi, demoRound]
  · simp [hzero i hi, demoRound]
  · simp [hzero k (hk.trans_le h), demoRound]

theorem demo_rounds {requests : ℕ} (h : requests ≤ 1) :
    ∀ round ∈ List.replicate 1608 demoRound, Round 1 requests round := by
  intro round hround
  rw [List.eq_of_mem_replicate hround]
  exact round_demoRound h

theorem demo_rounds_uploads : (deployed lenientPostgres demoMachine [demoUpload.args]
    (demoSteps ++ (List.replicate 1608 demoRound).flatten)).uploads.length ≤ 1 := by
  apply demo_uploads_le
  rw [taken_quiet (quiet_rounds (demo_rounds le_rfl))]
  decide +kernel

theorem deployments_settle_demo :
    let rounds := List.replicate 1608 demoRound
    let d := deployed lenientPostgres demoMachine [demoUpload.args] (demoSteps ++ rounds.flatten)
    d.Settled lenientPostgres demoMachine ∧
      (∀ later, (∀ s ∈ later, samples s = false) →
        d.run lenientPostgres demoMachine later = d) ∧
      ∀ i p, d.profilers[i]? = some p →
        (Profiler.taken (stepsOf i demoSteps)).Perm
          (p.ledger.missed ++ p.ledger.skipped ++ p.ledger.passed) ∧
        p.ledger.delivered.length + p.ledger.undelivered.length = p.ledger.passed.length / 201 ∧
        p.collector.buf.length = p.ledger.passed.length % 201 := by
  apply deployments_settle
  · exact demo_rounds demo_rounds_uploads
  · rw [List.length_replicate]
    decide +kernel

theorem countStarts_resolving (us : List Upload) (e : Int64) (p : List Frame) (f : Frame) :
    countStarts (samplesOf env (us.filter fun u ↦ u.Resolves env) e) (p ++ [f]) =
      countStarts (samplesOf env us e) (p ++ [f]) := by
  induction us with
  | nil => rfl
  | cons u us ih =>
    rw [samplesOf_cons, countStarts_append, ← ih, List.filter_cons]
    by_cases hu : u.Resolves env
    · rw [if_pos (decide_eq_true hu), samplesOf_cons, countStarts_append]
    · have hnone : ∀ path ∈ if u.executableId env = e then u.paths env else [], path = [] := by
        intro path hpath
        by_contra hne
        split at hpath
        · exact hu ⟨path, hpath, hne⟩
        · cases hpath
      have hzero : countStarts (if u.executableId env = e then u.paths env else []) (p ++ [f]) =
          0 := by
        rw [countStarts, List.countP_eq_zero]
        intro path hpath
        rw [hnone path hpath]
        simp
      rw [if_neg (by simpa using hu), hzero, Nat.zero_add]

theorem delivered_length (pg : Postgres) (env : Externals) (argss : List Args)
    (steps : List DeploymentStep) (e : Int64) :
    (samplesOf env (deployed pg env argss steps).delivered e).length =
      200 * ((deployed pg env argss steps).delivered.filter fun u ↦
        u.executableId env = e).length := by
  have hfull : ∀ u ∈ (deployed pg env argss steps).delivered, (u.paths env).length = 200 := by
    intro u hu
    obtain ⟨i, args, _, hu⟩ :=
      exists_profiler ((uploads_deployed pg env argss steps).mem_iff.mpr hu)
    rw [Upload.paths, List.length_map]
    exact ((Profiler.accounts_run env args (stepsOf i steps)).delivered_batch hu).1
  have hlengths : (((deployed pg env argss steps).delivered.filter fun u ↦
      u.executableId env = e).map fun u ↦ (u.paths env).length) = List.replicate
        ((deployed pg env argss steps).delivered.filter fun u ↦ u.executableId env = e).length
          200 := by
    refine List.eq_replicate_iff.mpr ⟨List.length_map _, ?_⟩
    rw [List.forall_mem_map]
    exact fun u hu ↦ hfull u (List.mem_filter.mp hu).1
  rw [samplesOf, List.length_flatMap, hlengths, List.sum_replicate_nat, Nat.mul_comm]

/-- Whatever has been delivered is drawn: after the rounds, a flame graph is the call tree of
all samples of all batches that reached the server, and 200 of each batch, even if new samples
are taken and stored while the page is being put together. -/
theorem deliveries_are_drawn (pg : Postgres) (env : Externals) (argss : List Args)
    (steps : List DeploymentStep) (rounds : List (List DeploymentStep))
    (later₁ later₂ : List DeploymentStep) (rows iter : Arrangement) {e : Int64} (he : e ≠ 123)
    (hrounds : ∀ round ∈ rounds, Round argss.length
      (deployed pg env argss (steps ++ rounds.flatten)).uploads.length round)
    (hlen : 8 * steps.countP samples ≤ rounds.length)
    (hl : ∀ u ∈ (deployed pg env argss (steps ++ rounds.flatten ++ later₁ ++ later₂)).uploads,
      u.WithinLimit env)
    (hframes : FramesDistinct env
      (deployed pg env argss (steps ++ rounds.flatten ++ later₁ ++ later₂)).uploads)
    (hids : NodeIdsDistinct env
      (deployed pg env argss (steps ++ rounds.flatten ++ later₁ ++ later₂)).uploads)
    (ha : ∀ u ∈ (deployed pg env argss (steps ++ rounds.flatten)).uploads,
      u.Resolves env → u.Acceptable pg env)
    (hsum : SumsFit env (deployed pg env argss (steps ++ rounds.flatten)).uploads) :
    let d₁ := deployed pg env argss (steps ++ rounds.flatten)
    let d₂ := deployed pg env argss (steps ++ rounds.flatten ++ later₁)
    let d₃ := deployed pg env argss (steps ++ rounds.flatten ++ later₁ ++ later₂)
    let paths := samplesOf env d₁.delivered e
    paths.length = 200 * (d₁.delivered.filter fun u ↦ u.executableId env = e).length ∧
      ((∃ u ∈ d₁.delivered, u.Resolves env ∧ u.executableId env = e) →
        ∃ pb ts, getDag rows iter e d₁.server.store d₂.server.store d₃.server.store =
            .ok (drawRoot pb ts) ∧ PrefixForest (drawFrame env) paths [] ts) := by
  intro d₁ d₂ d₃ paths
  refine ⟨delivered_length pg env argss (steps ++ rounds.flatten) e, ?_⟩
  intro hexe
  have hsettled : d₁.Settled pg env := settled_deployed pg env argss hrounds hlen
  have hperm : d₁.uploads.Perm d₁.delivered :=
    uploads_deployed pg env argss (steps ++ rounds.flatten)
  have hl₁ : ∀ u ∈ d₁.uploads, u.WithinLimit env := by
    intro u hu
    obtain ⟨news, huploads⟩ :=
      uploads_grow pg env argss (steps ++ rounds.flatten) (later₁ ++ later₂)
    apply hl
    rw [List.append_assoc, huploads]
    exact List.mem_append_left _ hu
  have hpast : ∀ k, 1 ≤ k → k ≤ 3 →
      d₁.server.past k = d₁.uploads.filter fun u ↦ u.Resolves env := by
    intro k hk hk'
    obtain ⟨sched, hserves⟩ := serves_deployed pg env argss (steps ++ rounds.flatten)
    have hended := hsettled.ended
    rw [hserves.server] at hended ⊢
    exact past_of_finished hl₁ ha hsum sched hended hk hk'
  have hrow : ∃ u ∈ d₃.server.past 2, u.executableId env = e := by
    obtain ⟨u, hu, hresolves, hid⟩ := hexe
    have hu₁ : u ∈ d₁.server.past 2 := by
      rw [hpast 2 (by omega) (by omega)]
      exact List.mem_filter.mpr ⟨hperm.mem_iff.mpr hu, decide_eq_true hresolves⟩
    refine ⟨u, ?_, hid⟩
    exact past_grows pg env argss _ later₂ 1 (past_grows pg env argss _ later₁ 1 hu₁)
  obtain ⟨pb, ts, hdag, hts⟩ := dag_deployed pg env argss (steps ++ rounds.flatten) later₁ later₂
    rows iter he hl hframes hids hrow
  refine ⟨pb, ts, hdag, hts.congr ?_⟩
  intro p f
  rw [hpast 3 (by omega) le_rfl, countStarts_resolving]
  exact ((hperm.filter _).flatMap_right _).countP_eq _

theorem deliveries_are_drawn_demo :
    let rounds := List.replicate 1608 demoRound
    let d₁ := deployed lenientPostgres demoMachine [demoUpload.args] (demoSteps ++ rounds.flatten)
    let d₂ := deployed lenientPostgres demoMachine [demoUpload.args]
      (demoSteps ++ rounds.flatten ++ [.client 0 (.sample demoEvent)])
    let d₃ := deployed lenientPostgres demoMachine [demoUpload.args]
      (demoSteps ++ rounds.flatten ++ [.client 0 (.sample demoEvent)] ++ [.client 0 .poll])
    let paths := List.replicate 200 [⟨"main", some "/src/main.c", some 3⟩]
    paths.length =
        200 * (d₁.delivered.filter fun u ↦ u.executableId demoMachine = 9544298).length ∧
      ∃ pb ts, getDag .asIs .reversed 9544298 d₁.server.store d₂.server.store d₃.server.store =
          .ok (drawRoot pb ts) ∧ PrefixForest (drawFrame demoMachine) paths [] ts := by
  dsimp only
  obtain ⟨u, huploads, hresolves, hid, _⟩ := demo_stored
  obtain ⟨news, hnews⟩ := uploads_grow lenientPostgres demoMachine [demoUpload.args] demoSteps
    (List.replicate 1608 demoRound).flatten
  have hlen := demo_rounds_uploads
  rw [hnews, huploads, List.length_append, List.length_singleton] at hlen
  obtain rfl : news = [] := List.length_eq_zero_iff.mp (by omega)
  rw [huploads, List.append_nil] at hnews
  have hperm := uploads_deployed lenientPostgres demoMachine [demoUpload.args]
    (demoSteps ++ (List.replicate 1608 demoRound).flatten)
  rw [hnews] at hperm
  have hdelivered := List.singleton_perm.mp hperm
  have hu := List.mem_singleton_self u
  have hsamples := demo_samples _ (hnews.symm ▸ hu) hid
  rw [hdelivered] at hsamples hu
  rw [← hsamples]
  obtain ⟨hcount, hdraws⟩ := deliveries_are_drawn lenientPostgres demoMachine [demoUpload.args]
    demoSteps (List.replicate 1608 demoRound) [.client 0 (.sample demoEvent)] [.client 0 .poll]
    .asIs .reversed (show (9544298 : Int64) ≠ 123 by decide) (demo_rounds demo_rounds_uploads)
    (by rw [List.length_replicate]; decide +kernel) (demo_withinLimit _) (demo_framesDistinct _)
    (demo_nodeIdsDistinct _) (fun u hu _ ↦ demo_acceptable hu) (demo_sumsFit demo_rounds_uploads)
  exact ⟨hcount, hdraws ⟨u, hu, hresolves, hid⟩⟩

end Deployment

end Sto
