import Sto.Convergence
import Sto.Profiles
import Sto.Sampling

namespace Sto

open Library

section Lists

variable {α β : Type}

theorem subperm_map {l l' : List α} (h : l.Subperm l') (f : α → β) :
    (l.map f).Subperm (l'.map f) := by
  obtain ⟨m, hperm, hsub⟩ := h
  exact ⟨m.map f, hperm.map f, hsub.map f⟩

theorem subperm_flatMap {l : List α} {f g : α → List β} (h : ∀ a ∈ l, (f a).Subperm (g a)) :
    (l.flatMap f).Subperm (l.flatMap g) := by
  induction l with
  | nil => exact List.Subperm.refl _
  | cons a l ih =>
    rw [List.forall_mem_cons] at h
    rw [List.flatMap_cons, List.flatMap_cons]
    exact h.1.append (ih h.2)

end Lists

namespace Profiler

variable {env : Externals} {args : Args} {seen : List StacktraceEvent} {p : Profiler}

def arriving (p : Profiler) : ProfilerStep → Option Upload
  | .post sink order utcNow dbNow true =>
    p.sinks[sink]?.map fun batch ↦ ⟨p.args, batch, order, utcNow, dbNow⟩
  | _ => none

theorem delivered_step (p : Profiler) (s : ProfilerStep) :
    (p.step env s).ledger.delivered = p.ledger.delivered ++ (p.arriving s).toList := by
  cases s with
  | sample ctx =>
    change (p.sample ctx).ledger.delivered = p.ledger.delivered ++ []
    rw [List.append_nil, sample]
    cases p.events.reserve ctx.record <;> rfl
  | submit slot => exact (List.append_nil _).symm
  | poll =>
    change p.poll.ledger.delivered = p.ledger.delivered ++ []
    rw [List.append_nil, poll]
    cases p.events.consume with
    | none => rfl
    | some next => by_cases hpid : next.1.pid = 0 <;> simp [hpid]
  | send thread =>
    change (p.send thread).ledger.delivered = p.ledger.delivered ++ []
    rw [List.append_nil, send]
    cases p.senders[thread]? <;> rfl
  | recv =>
    change (p.recv env).ledger.delivered = p.ledger.delivered ++ []
    rw [List.append_nil, recv]
    cases p.channel <;> rfl
  | post sink order utcNow dbNow arrives =>
    change (p.post sink order utcNow dbNow arrives).ledger.delivered = _
    rw [post]
    cases hs : p.sinks[sink]? with
    | none => cases arrives <;> simp [arriving, hs]
    | some batch => cases arrives <;> simp [arriving, hs, Ledger.post]

def symbolized (env : Externals) (args : Args) (taken : List StacktraceEvent) :
    List (List (List SymbolizedResult)) :=
  (taken.filter fun event ↦ event.pid ≠ 0).map fun event ↦ symbolize env (stackInfo args event)

theorem Accounts.received_subperm (h : Accounts env args seen p) :
    (p.ledger.received.map (symbolize env)).Subperm (symbolized env args seen) := by
  have hsent : p.ledger.received.Subperm (p.ledger.passed.map (stackInfo args)) := by
    apply List.Subperm.trans _ h.sent.symm.subperm
    exact (List.sublist_append_right _ _).subperm
  have hpassed : p.ledger.passed.Subperm (seen.filter fun event ↦ event.pid ≠ 0) := by
    have hall : p.ledger.passed.filter (fun event ↦ event.pid ≠ 0) = p.ledger.passed :=
      List.filter_eq_self.mpr fun event hevent ↦ decide_eq_true (h.passed event hevent)
    rw [← hall]
    apply List.Subperm.trans _ (h.recorded.symm.filter _).subperm
    rw [List.append_assoc]
    apply (List.Sublist.filter _ _).subperm
    exact (List.sublist_append_left _ _).trans (List.sublist_append_right _ _)
  have hmap := (subperm_map hsent (symbolize env)).trans
    (subperm_map (subperm_map hpassed (stackInfo args)) (symbolize env))
  rwa [List.map_map] at hmap

theorem Accounts.kept_eq (h : Accounts env args seen p) :
    p.collector.kept = Collector.survivors (p.ledger.received.map (symbolize env)) := by
  have hkept := (Collector.collect_kept env (p.ledger.received.map some)).2
  rwa [chunks_map_some, ← h.collector] at hkept

theorem Accounts.sunk_subperm (h : Accounts env args seen p) :
    p.collector.sunk.flatten.Subperm (symbolized env args seen) := by
  apply List.Subperm.trans _ h.received_subperm
  apply List.Subperm.trans _ (survivors_sublist _).subperm
  rw [← h.kept_eq]
  exact (List.sublist_append_left _ _).subperm

theorem Accounts.delivered_subperm (h : Accounts env args seen p) :
    (p.ledger.delivered.flatMap Upload.symlists).Subperm (symbolized env args seen) := by
  apply List.Subperm.trans _ h.sunk_subperm
  rw [List.flatMap_def]
  apply List.Subperm.trans _ h.sunk.symm.flatten.subperm
  exact (List.sublist_append_right _ _).flatten.subperm

theorem Accounts.delivered_batch (h : Accounts env args seen p) {u : Upload}
    (hu : u ∈ p.ledger.delivered) :
    u.symlists.length = 200 ∧ ∀ symlist ∈ u.symlists, symlist ∈ symbolized env args seen := by
  have hsunk : u.symlists ∈ p.collector.sunk := by
    rw [h.sunk.mem_iff]
    exact List.mem_append_right _ (List.mem_map_of_mem hu)
  constructor
  · rw [h.collector] at hsunk
    exact (collect_batches env p.ledger.received).1 _ hsunk
  · intro symlist hsymlist
    exact h.sunk_subperm.subset (List.mem_flatten_of_mem hsunk hsymlist)

theorem Accounts.delivered_count (h : Accounts env args seen p)
    (hlen : ∀ pid addrs, (env.blazesym pid addrs).length = addrs.length) {u : Upload}
    (hu : u ∈ p.ledger.delivered) : (u.executableRow env).sampleCount = 200 * 128 := by
  obtain ⟨hfull, hbatch⟩ := h.delivered_batch hu
  have hdepth : u.symlists.map (fun symlist ↦ (symlist.length : ℤ)) =
      List.replicate u.symlists.length 128 := by
    rw [← List.map_const']
    apply List.map_congr_left
    intro symlist hsymlist
    obtain ⟨event, _, rfl⟩ := List.mem_map.mp (hbatch symlist hsymlist)
    rw [symbolize, hlen, stackInfo, Vector.length_toList]
    rfl
  rw [executableRow_count, hdepth, hfull, List.sum_replicate]
  rfl

theorem Accounts.samples_subperm (h : Accounts env args seen p) (e : Int64) :
    (samplesOf env p.ledger.delivered e).Subperm
      (if (executableOf env args).id = e then (symbolized env args seen).map (resolvedPath env)
        else []) := by
  have hid : ∀ u ∈ p.ledger.delivered, u.executableId env = (executableOf env args).id := by
    intro u hu
    rw [Upload.executableId, h.delivered u hu]
  unfold samplesOf
  by_cases he : (executableOf env args).id = e
  · rw [if_pos he, List.filter_eq_self.mpr fun u hu ↦ decide_eq_true ((hid u hu).trans he)]
    have hpaths : p.ledger.delivered.flatMap (Upload.paths env) =
        (p.ledger.delivered.flatMap Upload.symlists).map (resolvedPath env) := List.map_flatMap.symm
    rw [hpaths]
    exact subperm_map h.delivered_subperm _
  · have hnone : p.ledger.delivered.filter (fun u ↦ u.executableId env = e) = [] := by
      rw [List.filter_eq_nil_iff]
      intro u hu hx
      exact he ((hid u hu).symm.trans (of_decide_eq_true hx))
    rw [if_neg he, hnone]
    exact List.Subperm.refl _

def passOn (ctx : PerfEvent) : List ProfilerStep := [.sample ctx, .submit 0, .poll, .send 0, .recv]

def passedOn (env : Externals) (args : Args) (events : List StacktraceEvent) : Profiler :=
  let collector := Collector.collect env ((events.map (stackInfo args)).map some)
  ⟨args, .empty, [], [], collector, collector.sunk,
    ⟨[], [], events, events.map (stackInfo args), [], []⟩⟩

theorem run_passOn (env : Externals) (args : Args) (events : List StacktraceEvent)
    {ctx : PerfEvent} (hpid : ctx.record.pid ≠ 0) :
    (passedOn env args events).run env (passOn ctx) =
      passedOn env args (events ++ [ctx.record]) := by
  obtain ⟨r, hreserve, hconsume⟩ := RingBuffer.pass_through ctx.record
    (show 0 < eventsCapacity by decide)
  have hpolled : (((passedOn env args events).sample ctx).submit 0).poll =
      { passedOn env args events with
        senders := [stackInfo args ctx.record]
        ledger := ⟨[], [], events ++ [ctx.record], events.map (stackInfo args), [], []⟩ } := by
    rw [sample, passedOn, hreserve]
    dsimp only [submit]
    rw [poll, hconsume]
    exact if_neg hpid
  let collector := Collector.collect env ((events.map (stackInfo args)).map some)
  have hcollector :
      Collector.collect env (((events ++ [ctx.record]).map (stackInfo args)).map some) =
        (passedOn env args events).collector.recv env (some (stackInfo args ctx.record)) := by
    rw [List.map_append, List.map_append, List.map_singleton, List.map_singleton,
      Collector.collect_concat]
    rfl
  have hsinks := List.prefix_iff_eq_append.mp
    (@Collector.sunk_prefix env (passedOn env args events).collector
      (some (stackInfo args ctx.record)))
  change ((((passedOn env args events).sample ctx).submit 0).poll.send 0).recv env = _
  rw [hpolled, passedOn.eq_def env args (events ++ [ctx.record]), hcollector, List.map_append]
  exact congrArg (fun sinks ↦ Profiler.mk args .empty [] [] _ sinks _) hsinks

theorem run_passOns (env : Externals) (args : Args) {ctxs : List PerfEvent}
    (hpid : ∀ ctx ∈ ctxs, ctx.record.pid ≠ 0) :
    (start args).run env (ctxs.flatMap passOn) = passedOn env args (ctxs.map PerfEvent.record) := by
  induction ctxs using List.reverseRecOn with
  | nil => rfl
  | append_singleton ctxs ctx ih =>
    obtain ⟨hctxs, hctx⟩ := List.forall_mem_append.mp hpid
    have hrun := ih hctxs
    rw [run] at hrun
    rw [List.flatMap_append, List.flatMap_singleton, run, List.foldl_append, hrun, List.map_append]
    exact run_passOn env args _ (hctx ctx (List.mem_singleton_self _))

end Profiler

section Limits

variable {env : Externals}

theorem length_pathNodes (executableId : Int64) (parent : Option Int64) (path : List Frame) :
    (pathNodes env executableId parent path).length = path.length := by
  induction path generalizing parent with
  | nil => rfl
  | cons f path ih => exact congrArg (· + 1) (ih _)

theorem length_payload_le (env : Externals) (u : Upload) :
    (u.payload env).stackNodes.length ≤ (u.paths env).flatten.length ∧
      (u.payload env).stackNodeDatas.length ≤ (u.paths env).flatten.length := by
  have hnodes : (u.occurrences env).length = (u.paths env).flatten.length := by
    rw [Upload.occurrences_eq, List.length_flatMap, List.length_flatten]
    exact congrArg List.sum (List.map_congr_left fun path _ ↦ length_pathNodes _ _ path)
  have hdatas : (u.frameRows env).length = (u.paths env).flatten.length := by
    rw [Upload.frameRows_eq, List.length_map]
  constructor
  · rw [← hnodes, ← List.length_map (f := StackNode.id), ← List.length_map (f := StackNode.id)]
    apply (List.subperm_of_subset u.nodes_nodup _).length_le
    intro k hk
    exact List.mem_map.mpr (Upload.mem_payload_node_ids.mp hk)
  · rw [← hdatas, ← List.length_map (f := StackNodeData.id),
      ← List.length_map (f := StackNodeData.id)]
    apply (List.subperm_of_subset u.datas_nodup _).length_le
    intro k hk
    exact List.mem_map.mpr (Upload.mem_payload_data_ids.mp hk)

theorem withinLimit_of_shallow {u : Upload} (hlen : u.symlists.length = 200)
    (hdepth : ∀ path ∈ u.paths env, path.length ≤ 81) : u.WithinLimit env := by
  have htotal : (u.paths env).flatten.length ≤ 200 * 81 := by
    have hsum := List.sum_le_card_nsmul ((u.paths env).map List.length) 81 <| by
      intro n hn
      obtain ⟨path, hpath, rfl⟩ := List.mem_map.mp hn
      exact hdepth path hpath
    rw [List.length_map, Upload.paths, List.length_map, hlen] at hsum
    rw [List.length_flatten]
    exact hsum
  obtain ⟨hnodes, hdatas⟩ := length_payload_le env u
  have hlimit : 200 * 81 ≤ bindLimit / 4 := by decide
  exact ⟨hnodes.trans (htotal.trans hlimit), hdatas.trans (htotal.trans hlimit)⟩

end Limits

/-- Machines that profile, and the server that they post to. -/
structure Deployment where
  profilers : List Profiler
  server : System Upload Db SqlError

inductive DeploymentStep
  | client (i : ℕ) (s : ProfilerStep)
  | serve (k : ℕ)

namespace Deployment

def start (argss : List Args) : Deployment := ⟨argss.map Profiler.start, .start .empty []⟩

/-- A client does not wait for the server: what it posts becomes a request there, whose
transactions run at any later time. -/
def client (env : Externals) (d : Deployment) (i : ℕ) (s : ProfilerStep) : Deployment :=
  match d.profilers[i]? with
  | none => d
  | some p =>
    ⟨d.profilers.set i (p.step env s),
      ⟨d.server.store, d.server.jobs ++ (p.arriving s).toList.map Job.start⟩⟩

def step (pg : Postgres) (env : Externals) (d : Deployment) : DeploymentStep → Deployment
  | .client i s => d.client env i s
  | .serve k => { d with server := d.server.step (program pg env) k }

def run (pg : Postgres) (env : Externals) (d : Deployment) (steps : List DeploymentStep) :
    Deployment := steps.foldl (step pg env) d

/-- The state that the steps lead to when all profilers start anew on an empty database. -/
abbrev deployed (pg : Postgres) (env : Externals) (argss : List Args)
    (steps : List DeploymentStep) : Deployment := (start argss).run pg env steps

def stepsOf (i : ℕ) (steps : List DeploymentStep) : List ProfilerStep :=
  steps.filterMap fun
    | .client j s => if j = i then some s else none
    | .serve _ => none

def uploads (d : Deployment) : List Upload := d.server.jobs.map Job.request

def delivered (d : Deployment) : List Upload := d.profilers.flatMap fun p ↦ p.ledger.delivered

variable {pg : Postgres} {env : Externals} {d : Deployment} {sched : List ℕ}

theorem run_append (a b : List DeploymentStep) :
    d.run pg env (a ++ b) = (d.run pg env a).run pg env b := List.foldl_append

theorem stepsOf_append (i : ℕ) (a b : List DeploymentStep) :
    stepsOf i (a ++ b) = stepsOf i a ++ stepsOf i b := List.filterMap_append

theorem profilers_deployed (pg : Postgres) (env : Externals) (argss : List Args)
    (steps : List DeploymentStep) (i : ℕ) :
    (deployed pg env argss steps).profilers[i]? =
      argss[i]?.map fun args ↦ (Profiler.start args).run env (stepsOf i steps) := by
  induction steps using List.reverseRecOn with
  | nil => exact List.getElem?_map
  | append_singleton steps s ih =>
    rw [deployed, run_append, stepsOf_append]
    change ((deployed pg env argss steps).step pg env s).profilers[i]? = _
    cases s with
    | serve k =>
      change _ = argss[i]?.map fun args ↦ (Profiler.start args).run env (stepsOf i steps ++ [])
      rw [List.append_nil]
      exact ih
    | client j s =>
      change ((deployed pg env argss steps).client env j s).profilers[i]? = _
      unfold client
      by_cases hij : j = i
      · subst hij
        have hown : stepsOf j [.client j s] = [s] := by simp [stepsOf]
        cases hp : (deployed pg env argss steps).profilers[j]? with
        | none =>
          rw [hp, eq_comm, Option.map_eq_none_iff] at ih
          dsimp only
          rw [hp, ih]
          rfl
        | some p =>
          rw [hp] at ih
          obtain ⟨args, hargs, rfl⟩ := Option.map_eq_some_iff.mp ih.symm
          dsimp only
          rw [List.getElem?_set_self (List.getElem?_eq_some_iff.mp hp).1, hargs, hown,
            Option.map_some, Profiler.run, Profiler.run, List.foldl_append]
          rfl
      · have hother : stepsOf i [.client j s] = [] := by simp [stepsOf, hij]
        rw [hother, List.append_nil, ← ih]
        cases (deployed pg env argss steps).profilers[j]? with
        | none => rfl
        | some p => exact List.getElem?_set_ne hij

/-- The state of the server is that of an interleaving of the uploads that have arrived. -/
structure Serves (pg : Postgres) (env : Externals) (d : Deployment) (sched : List ℕ) : Prop where
  bounded : ∀ k ∈ sched, k < d.uploads.length
  server : d.server = reached pg env d.uploads sched

theorem Serves.start (pg : Postgres) (env : Externals) (argss : List Args) :
    Serves pg env (start argss) [] := ⟨nofun, rfl⟩

theorem Serves.with_news (h : d.Serves pg env sched) (news : List Upload) :
    reached pg env (d.uploads ++ news) sched =
      ⟨d.server.store, d.server.jobs ++ news.map Job.start⟩ := by
  rw [reached_arrivals pg env h.bounded news, ← h.server]

theorem past_news {s : System Upload Db SqlError} (news : List Upload) (k : ℕ) :
    (⟨s.store, s.jobs ++ news.map Job.start⟩ : System Upload Db SqlError).past (k + 1) =
      s.past (k + 1) := by
  have hnone : (⟨s.store, news.map Job.start⟩ : System Upload Db SqlError).past (k + 1) = [] :=
    System.past_start k s.store news
  rw [System.past_append, hnone, List.append_nil]

theorem Serves.earlier (h : d.Serves pg env sched) {us news : List Upload}
    (hus : us = d.uploads ++ news) : d.server.store = (reached pg env us sched).store ∧
      ∀ k, d.server.past (k + 1) = (reached pg env us sched).past (k + 1) := by
  rw [hus, h.with_news]
  exact ⟨rfl, fun k ↦ (past_news news k).symm⟩

theorem Serves.step (h : d.Serves pg env sched) (s : DeploymentStep) :
    ∃ news more, (d.step pg env s).uploads = d.uploads ++ news ∧
      (d.step pg env s).Serves pg env (sched ++ more) := by
  cases s with
  | serve k =>
    have huploads : (d.step pg env (.serve k)).uploads = d.uploads := System.step_requests _ k
    by_cases hk : k < d.uploads.length
    · refine ⟨[], [k], by rw [huploads, List.append_nil], ?_, ?_⟩
      · rw [huploads]
        exact List.forall_mem_append.mpr ⟨h.bounded, by simpa using hk⟩
      · rw [huploads, reached, System.run_append, ← reached, ← h.server]
        rfl
    · have hnone : d.server.jobs[k]? = none := by
        rw [List.getElem?_eq_none_iff, ← List.length_map (f := Job.request)]
        exact Nat.le_of_not_lt hk
      refine ⟨[], [], by rw [huploads, List.append_nil], ?_, ?_⟩
      · rw [huploads, List.append_nil]
        exact h.bounded
      · rw [huploads, List.append_nil, ← h.server]
        change d.server.step (program pg env) k = d.server
        rw [System.step, hnone]
  | client i s =>
    change ∃ news more, (d.client env i s).uploads = _ ∧ (d.client env i s).Serves pg env _
    unfold client
    cases d.profilers[i]? with
    | none => exact ⟨[], [], (List.append_nil _).symm, by rw [List.append_nil]; exact h⟩
    | some p =>
      have huploads : ∀ news : List Upload,
          (d.server.jobs ++ news.map Job.start).map Job.request = d.uploads ++ news := by
        intro news
        rw [List.map_append, List.map_map]
        exact congrArg (d.uploads ++ ·) (List.map_id news)
      refine ⟨(p.arriving s).toList, [], huploads _, ?_, ?_⟩
      · intro k hk
        rw [uploads, huploads, List.length_append]
        exact Nat.lt_add_right _ (h.bounded k (by simpa using hk))
      · rw [uploads, huploads, List.append_nil, h.with_news]

theorem Serves.run (h : d.Serves pg env sched) (steps : List DeploymentStep) :
    ∃ news more, (d.run pg env steps).uploads = d.uploads ++ news ∧
      (d.run pg env steps).Serves pg env (sched ++ more) := by
  induction steps generalizing d sched with
  | nil => exact ⟨[], [], (List.append_nil _).symm, by rw [List.append_nil]; exact h⟩
  | cons s steps ih =>
    obtain ⟨news, more, huploads, hserves⟩ := h.step s
    obtain ⟨news', more', huploads', hserves'⟩ := ih hserves
    refine ⟨news ++ news', more ++ more', ?_, ?_⟩
    · rw [← List.append_assoc, ← huploads]
      exact huploads'
    · rw [← List.append_assoc]
      exact hserves'

theorem Serves.later {argss : List Args} {steps : List DeploymentStep}
    (h : (deployed pg env argss steps).Serves pg env sched) (later : List DeploymentStep) :
    ∃ news more, (deployed pg env argss (steps ++ later)).uploads =
        (deployed pg env argss steps).uploads ++ news ∧
      (deployed pg env argss (steps ++ later)).Serves pg env (sched ++ more) := by
  rw [deployed, run_append]
  exact h.run later

theorem serves_deployed (pg : Postgres) (env : Externals) (argss : List Args)
    (steps : List DeploymentStep) : ∃ sched, (deployed pg env argss steps).Serves pg env sched := by
  obtain ⟨_, sched, _, h⟩ := (Serves.start pg env argss).run steps
  exact ⟨_, h⟩

theorem uploads_grow (pg : Postgres) (env : Externals) (argss : List Args)
    (steps later : List DeploymentStep) : ∃ news,
      (deployed pg env argss (steps ++ later)).uploads =
        (deployed pg env argss steps).uploads ++ news := by
  obtain ⟨sched, hserves⟩ := serves_deployed pg env argss steps
  obtain ⟨news, _, huploads, _⟩ := hserves.later later
  exact ⟨news, huploads⟩

theorem past_grows (pg : Postgres) (env : Externals) (argss : List Args)
    (steps later : List DeploymentStep) (k : ℕ) {u : Upload}
    (hu : u ∈ (deployed pg env argss steps).server.past (k + 1)) :
    u ∈ (deployed pg env argss (steps ++ later)).server.past (k + 1) := by
  obtain ⟨sched, hserves⟩ := serves_deployed pg env argss steps
  obtain ⟨news, more, huploads, hserves'⟩ := hserves.later later
  rw [(hserves.earlier huploads).2] at hu
  rw [hserves'.server, reached, System.run_append]
  exact (System.past_subperm (program pg env) _ more (k + 1)).subset hu

theorem step_client (p : Profiler) (server : System Upload Db SqlError) (s : ProfilerStep) :
    (⟨[p], server⟩ : Deployment).step pg env (.client 0 s) =
      ⟨[p.step env s], ⟨server.store, server.jobs ++ (p.arriving s).toList.map Job.start⟩⟩ := rfl

theorem run_unposted (p : Profiler) (server : System Upload Db SqlError) {steps : List ProfilerStep}
    (h : ∀ s ∈ steps, ∀ p : Profiler, p.arriving s = none) :
    (⟨[p], server⟩ : Deployment).run pg env (steps.map (.client 0)) =
      ⟨[p.run env steps], server⟩ := by
  induction steps generalizing p with
  | nil => rfl
  | cons s steps ih =>
    rw [List.forall_mem_cons] at h
    rw [List.map_cons, run, List.foldl_cons, step_client, h.1 p, Option.toList_none, List.map_nil,
      List.append_nil]
    exact ih _ h.2

theorem run_serves (ps : List Profiler) (server : System Upload Db SqlError) (sched : List ℕ) :
    (⟨ps, server⟩ : Deployment).run pg env (sched.map .serve) =
      ⟨ps, server.run (program pg env) sched⟩ := by
  induction sched generalizing server with
  | nil => rfl
  | cons k sched ih => exact ih (server.step (program pg env) k)

/-- Each request at the server is a batch that a sink thread has posted, and each of those
that arrive is there once. -/
theorem uploads_deployed (pg : Postgres) (env : Externals) (argss : List Args)
    (steps : List DeploymentStep) :
    (deployed pg env argss steps).uploads.Perm (deployed pg env argss steps).delivered := by
  induction steps using List.reverseRecOn with
  | nil =>
    have hnone : (start argss).delivered = [] := by
      rw [delivered, List.flatMap_eq_nil_iff]
      intro p hp
      obtain ⟨args, _, rfl⟩ := List.mem_map.mp hp
      rfl
    change List.Perm [] (start argss).delivered
    rw [hnone]
  | append_singleton steps s ih =>
    rw [deployed, run_append]
    change ((deployed pg env argss steps).step pg env s).uploads.Perm
      ((deployed pg env argss steps).step pg env s).delivered
    generalize deployed pg env argss steps = d at ih ⊢
    cases s with
    | serve k =>
      have huploads : (d.step pg env (.serve k)).uploads = d.uploads := System.step_requests _ k
      rw [huploads]
      exact ih
    | client i s =>
      change (d.client env i s).uploads.Perm (d.client env i s).delivered
      unfold client
      cases hp : d.profilers[i]? with
      | none => exact ih
      | some p =>
        obtain ⟨as, bs, hsplit, hset⟩ := System.exists_split hp
        rw [delivered, hsplit, List.flatMap_append, List.flatMap_cons] at ih
        dsimp only
        rw [uploads, delivered, hset, List.flatMap_append, List.flatMap_cons,
          Profiler.delivered_step, List.map_append, List.map_map]
        apply (ih.append_right _).trans
        simpa only [List.append_assoc, Function.comp_def, Job.start, List.map_id'] using
          Profiler.perm_insert ((as.flatMap fun p ↦ p.ledger.delivered) ++ p.ledger.delivered)
            (bs.flatMap fun p ↦ p.ledger.delivered) (p.arriving s).toList

/-- A deployment of many profilers and one server is the two put together: each profiler runs
as if it were alone, the requests are the batches that arrive, each of them once, and the
server goes through states of one interleaving of all requests that there will be. -/
theorem deployment_refines (pg : Postgres) (env : Externals) (argss : List Args)
    (steps later : List DeploymentStep) :
    let d := deployed pg env argss steps
    let d' := deployed pg env argss (steps ++ later)
    (∀ i, d.profilers[i]? =
      argss[i]?.map fun args ↦ (Profiler.start args).run env (stepsOf i steps)) ∧
    d.uploads.Perm d.delivered ∧
    ∃ sched more, d.server.store = (reached pg env d'.uploads sched).store ∧
      (∀ k, d.server.past (k + 1) = (reached pg env d'.uploads sched).past (k + 1)) ∧
      d'.server = reached pg env d'.uploads (sched ++ more) := by
  intro d d'
  refine ⟨profilers_deployed pg env argss steps, uploads_deployed pg env argss steps, ?_⟩
  obtain ⟨sched, hserves⟩ := serves_deployed pg env argss steps
  obtain ⟨news, more, huploads, hserves'⟩ := hserves.later later
  obtain ⟨hstore, hpast⟩ := hserves.earlier huploads
  exact ⟨sched, more, hstore, hpast, hserves'.server⟩

/-- The call paths of all samples that the kernels have taken of an executable's processes. -/
def sampledPaths (env : Externals) (argss : List Args) (steps : List DeploymentStep) (e : Int64) :
    List (List Frame) :=
  argss.zipIdx.flatMap fun a ↦
    if (executableOf env a.1).id = e then
      (Profiler.symbolized env a.1 (Profiler.taken (stepsOf a.2 steps))).map (resolvedPath env)
    else []

theorem samplesOf_flatMap {α : Type*} (l : List α) (f : α → List Upload) (e : Int64) :
    samplesOf env (l.flatMap f) e = l.flatMap fun a ↦ samplesOf env (f a) e := by
  rw [samplesOf, List.filter_flatMap, List.flatMap_assoc]
  rfl

theorem profilers_eq (pg : Postgres) (env : Externals) (argss : List Args)
    (steps : List DeploymentStep) : (deployed pg env argss steps).profilers =
      argss.zipIdx.map fun a ↦ (Profiler.start a.1).run env (stepsOf a.2 steps) := by
  apply List.ext_getElem?
  intro i
  rw [profilers_deployed, List.getElem?_map, List.getElem?_zipIdx, Option.map_map, zero_add]
  rfl

theorem samples_deployed (pg : Postgres) (env : Externals) (argss : List Args)
    (steps : List DeploymentStep) (k : ℕ) (e : Int64) :
    (samplesOf env ((deployed pg env argss steps).server.past k) e).Subperm
      (sampledPaths env argss steps e) := by
  apply (samplesOf_subperm (System.past_sublist _ k).subperm e).trans
  apply (samplesOf_subperm (uploads_deployed pg env argss steps).subperm e).trans
  rw [delivered, samplesOf_flatMap, profilers_eq, List.flatMap_map]
  exact subperm_flatMap fun a _ ↦ (Profiler.accounts_run env a.1 _).samples_subperm e

theorem exists_profiler {argss : List Args} {steps : List DeploymentStep} {u : Upload}
    (hu : u ∈ (deployed pg env argss steps).uploads) : ∃ i args, argss[i]? = some args ∧
      u ∈ ((Profiler.start args).run env (stepsOf i steps)).ledger.delivered := by
  rw [(uploads_deployed pg env argss steps).mem_iff, delivered, List.mem_flatMap] at hu
  obtain ⟨p, hp, hu⟩ := hu
  obtain ⟨i, hi⟩ := List.mem_iff_getElem?.mp hp
  rw [profilers_deployed] at hi
  obtain ⟨args, hargs, rfl⟩ := Option.map_eq_some_iff.mp hi
  exact ⟨i, args, hargs, hu⟩

theorem uploads_counted (hlen : ∀ pid addrs, (env.blazesym pid addrs).length = addrs.length)
    (pg : Postgres) (argss : List Args) (steps : List DeploymentStep) :
    ∀ u ∈ (deployed pg env argss steps).uploads, u.symlists.length = 200 ∧
      (u.executableRow env).sampleCount = 200 * 128 := by
  intro u hu
  obtain ⟨i, args, _, hu⟩ := exists_profiler hu
  have haccounts := Profiler.accounts_run env args (stepsOf i steps)
  exact ⟨(haccounts.delivered_batch hu).1, haccounts.delivered_count hlen hu⟩

theorem dag_deployed (pg : Postgres) (env : Externals) (argss : List Args)
    (steps₁ steps₂ steps₃ : List DeploymentStep) (rows iter : Arrangement) {e : Int64}
    (he : e ≠ 123)
    (hl : ∀ u ∈ (deployed pg env argss (steps₁ ++ steps₂ ++ steps₃)).uploads, u.WithinLimit env)
    (hframes : FramesDistinct env (deployed pg env argss (steps₁ ++ steps₂ ++ steps₃)).uploads)
    (hids : NodeIdsDistinct env (deployed pg env argss (steps₁ ++ steps₂ ++ steps₃)).uploads)
    (hexe : ∃ u ∈ (deployed pg env argss (steps₁ ++ steps₂ ++ steps₃)).server.past 2,
      u.executableId env = e) :
    ∃ pb ts, getDag rows iter e (deployed pg env argss steps₁).server.store
        (deployed pg env argss (steps₁ ++ steps₂)).server.store
        (deployed pg env argss (steps₁ ++ steps₂ ++ steps₃)).server.store = .ok (drawRoot pb ts) ∧
      PrefixForest (drawFrame env)
        (samplesOf env ((deployed pg env argss steps₁).server.past 3) e) [] ts := by
  obtain ⟨σ₁, h₁⟩ := serves_deployed pg env argss steps₁
  obtain ⟨news₂, σ₂, huploads₂, h₂⟩ := h₁.later steps₂
  obtain ⟨news₃, σ₃, huploads₃, h₃⟩ := h₂.later steps₃
  obtain ⟨hstore₂, _⟩ := h₂.earlier huploads₃
  have huploads : (deployed pg env argss (steps₁ ++ steps₂ ++ steps₃)).uploads =
      (deployed pg env argss steps₁).uploads ++ (news₂ ++ news₃) := by
    rw [← List.append_assoc, ← huploads₂]
    exact huploads₃
  obtain ⟨hstore₁, hpast₁⟩ := h₁.earlier huploads
  have hrow : (deployed pg env argss (steps₁ ++ steps₂ ++ steps₃)).server.store.executable.Has
      e := by
    rw [h₃.server] at hexe ⊢
    exact ((replay_run pg hl _).has_executable e).mpr hexe
  obtain ⟨pb, hpb⟩ := Table.has_iff_lookup.mp hrow
  obtain ⟨ts, hdag, hts⟩ := dag_committed pg hl hframes hids σ₁ σ₂ rows iter he hpb
  rw [← hstore₁, ← hstore₂] at hdag
  rw [← hpast₁] at hts
  exact ⟨pb, ts, hdag, hts⟩

/-- What a flame graph shows are samples that kernels have taken on the machines that profile
the executable, none of them twice, whatever the machines and the server do while the
page is being put together. -/
theorem flame_graph_of_samples (pg : Postgres) (env : Externals) (argss : List Args)
    (steps₁ steps₂ steps₃ : List DeploymentStep) (rows iter : Arrangement) {e : Int64}
    (he : e ≠ 123)
    (hl : ∀ u ∈ (deployed pg env argss (steps₁ ++ steps₂ ++ steps₃)).uploads, u.WithinLimit env)
    (hframes : FramesDistinct env (deployed pg env argss (steps₁ ++ steps₂ ++ steps₃)).uploads)
    (hids : NodeIdsDistinct env (deployed pg env argss (steps₁ ++ steps₂ ++ steps₃)).uploads) :
    let d₁ := deployed pg env argss steps₁
    let d₂ := deployed pg env argss (steps₁ ++ steps₂)
    let d₃ := deployed pg env argss (steps₁ ++ steps₂ ++ steps₃)
    let answer := getDag rows iter e d₁.server.store d₂.server.store d₃.server.store
    let paths := samplesOf env (d₁.server.past 3) e
    ((∃ u ∈ d₃.server.past 2, u.executableId env = e) →
      ∃ pb ts, answer = .ok (drawRoot pb ts) ∧ PrefixForest (drawFrame env) paths [] ts) ∧
    paths.Subperm (sampledPaths env argss steps₁ e) := by
  intro d₁ d₂ d₃ answer paths
  refine ⟨?_, samples_deployed pg env argss steps₁ 3 e⟩
  exact dag_deployed pg env argss steps₁ steps₂ steps₃ rows iter he hl hframes hids

def demoMachine : Externals :=
  { demoExternals with
    blazesym := fun _ addrs ↦ match addrs with
      | [] => []
      | _ :: addrs => [⟨"main", "/src/main.c", 3⟩] :: addrs.map fun _ ↦ [] }

def demoSymlist : List (List SymbolizedResult) :=
  [⟨"main", "/src/main.c", 3⟩] :: List.replicate 127 []

/-- As many samples as the first batch takes, each passed on at once, and the batch stored. -/
@[irreducible] def demoSteps : List DeploymentStep :=
  ((List.replicate 201 demoEvent).flatMap Profiler.passOn).map (.client 0) ++
    .client 0 (.post 0 .asIs 0 0 true) :: [0, 0, 0].map .serve

theorem demo_symbolize (event : StacktraceEvent) (args : Args) :
    symbolize demoMachine (Profiler.stackInfo args event) = demoSymlist := by
  have hlen : event.ustack.toList.length = 127 + 1 := Vector.length_toList
  obtain ⟨addr, addrs, haddrs⟩ := List.exists_cons_of_length_eq_add_one hlen
  rw [haddrs, List.length_cons, Nat.add_right_cancel_iff] at hlen
  change (match event.ustack.toList with
    | [] => []
    | _ :: addrs => [⟨"main", "/src/main.c", 3⟩] :: addrs.map fun _ ↦ []) = demoSymlist
  rw [haddrs, demoSymlist, ← hlen, ← List.map_const']

theorem demo_uploads {steps : List DeploymentStep} {u : Upload}
    (hu : u ∈ (deployed lenientPostgres demoMachine [demoUpload.args] steps).uploads) :
    u.args = demoUpload.args ∧ u.symlists = List.replicate 200 demoSymlist := by
  obtain ⟨i, args, hargs, hu⟩ := exists_profiler hu
  obtain rfl : args = demoUpload.args := by
    simpa using List.mem_of_getElem? hargs
  have haccounts := Profiler.accounts_run demoMachine demoUpload.args (stepsOf i steps)
  obtain ⟨hlen, hbatch⟩ := haccounts.delivered_batch hu
  refine ⟨haccounts.delivered u hu, List.eq_replicate_iff.mpr ⟨hlen, fun symlist hsymlist ↦ ?_⟩⟩
  obtain ⟨event, _, rfl⟩ := List.mem_map.mp (hbatch symlist hsymlist)
  exact demo_symbolize event demoUpload.args

theorem demo_paths {steps : List DeploymentStep} {u : Upload}
    (hu : u ∈ (deployed lenientPostgres demoMachine [demoUpload.args] steps).uploads) :
    u.paths demoMachine = List.replicate 200 [⟨"main", some "/src/main.c", some 3⟩] := by
  rw [Upload.paths, (demo_uploads hu).2, List.map_replicate]
  apply congrArg
  decide +kernel

theorem demo_withinLimit (steps : List DeploymentStep) :
    ∀ u ∈ (deployed lenientPostgres demoMachine [demoUpload.args] steps).uploads,
      u.WithinLimit demoMachine := by
  intro u hu
  have hlen : u.symlists.length = 200 := by
    rw [(demo_uploads hu).2, List.length_replicate]
  apply withinLimit_of_shallow hlen
  intro path hpath
  rw [demo_paths hu] at hpath
  rw [List.eq_of_mem_replicate hpath]
  decide

theorem demo_framesDistinct (steps : List DeploymentStep) : FramesDistinct demoMachine
    (deployed lenientPostgres demoMachine [demoUpload.args] steps).uploads := by
  intro f hf g hg _
  have hframe : ∀ x ∈ (deployed lenientPostgres demoMachine [demoUpload.args]
      steps).uploads.flatMap (fun u ↦ (u.paths demoMachine).flatten),
      x = ⟨"main", some "/src/main.c", some 3⟩ := by
    intro x hx
    obtain ⟨u, hu, hx⟩ := List.mem_flatMap.mp hx
    rw [demo_paths hu] at hx
    obtain ⟨path, hpath, hx⟩ := List.mem_flatten.mp hx
    rw [List.eq_of_mem_replicate hpath] at hx
    exact List.mem_singleton.mp hx
  rw [hframe f hf, hframe g hg]

theorem demo_nodeIdsDistinct (steps : List DeploymentStep) : NodeIdsDistinct demoMachine
    (deployed lenientPostgres demoMachine [demoUpload.args] steps).uploads := by
  intro a ha b hb _
  have hnode : ∀ x ∈ (deployed lenientPostgres demoMachine [demoUpload.args]
      steps).uploads.flatMap (Upload.occurrences demoMachine),
      x = pathNode demoMachine (executableOf demoMachine demoUpload.args).id none
        ⟨"main", some "/src/main.c", some 3⟩ := by
    intro x hx
    obtain ⟨u, hu, hx⟩ := List.mem_flatMap.mp hx
    rw [Upload.occurrences_eq, demo_paths hu] at hx
    obtain ⟨path, hpath, hx⟩ := List.mem_flatMap.mp hx
    rw [List.eq_of_mem_replicate hpath, Upload.executableId, (demo_uploads hu).1] at hx
    exact List.mem_singleton.mp hx
  rw [hnode a ha, hnode b hb]
  exact ⟨rfl, rfl, rfl⟩

theorem demo_acceptable {steps : List DeploymentStep} {u : Upload}
    (hu : u ∈ (deployed lenientPostgres demoMachine [demoUpload.args] steps).uploads) :
    u.Acceptable lenientPostgres demoMachine where
  event := rfl
  version := by
    rw [(demo_uploads hu).1]
    rfl
  binary := rfl
  frames _ _ := ⟨rfl, by simp [lenientPostgres], rfl⟩

theorem demo_answers (pid : UInt32) (addrs : List UInt64) :
    (demoMachine.blazesym pid addrs).length = addrs.length := by
  cases addrs with
  | nil => rfl
  | cons addr addrs => exact congrArg (· + 1) (List.length_map _)

theorem demo_counters {steps : List DeploymentStep} {u : Upload}
    (hu : u ∈ (deployed lenientPostgres demoMachine [demoUpload.args] steps).uploads) :
    ∀ c ∈ counters, c (u.executableRow demoMachine) < 2 ^ 63 := by
  obtain ⟨hargs, hsymlists⟩ := demo_uploads hu
  intro c hc
  simp only [counters, List.mem_cons, List.not_mem_nil, or_false] at hc
  obtain rfl | rfl | rfl := hc
  · rw [(uploads_counted demo_answers lenientPostgres [demoUpload.args] steps u hu).2]
    decide
  · change 0 + ((batchStacks u.symlists).map fun s ↦ (demoMachine.stackSize s : ℤ)).sum < 2 ^ 63
    rw [hsymlists, batchStacks, List.flatMap_replicate, List.map_flatten, List.sum_flatten,
      List.map_replicate, List.map_replicate, List.sum_replicate]
    decide +kernel
  · have hlimit := (demo_withinLimit steps u hu).1
    have hsmall : bindLimit / 4 ≤ 16383 := by decide
    change ((u.payload demoMachine).stackNodes.length : ℤ) < 2 ^ 63
    omega

theorem demo_sumsFit {steps : List DeploymentStep}
    (h : (deployed lenientPostgres demoMachine [demoUpload.args] steps).uploads.length ≤ 1) :
    SumsFit demoMachine (deployed lenientPostgres demoMachine [demoUpload.args] steps).uploads := by
  cases huploads : (deployed lenientPostgres demoMachine [demoUpload.args] steps).uploads with
  | nil =>
    have hzero : (0 : ℤ) < 2 ^ 63 := by decide
    exact ⟨fun _ ↦ hzero, fun _ _ _ ↦ hzero⟩
  | cons u us =>
    have hu : u ∈ (deployed lenientPostgres demoMachine [demoUpload.args] steps).uploads := by
      rw [huploads]
      exact List.mem_cons_self
    rw [huploads, List.length_cons] at h
    obtain rfl : us = [] := List.length_eq_zero_iff.mp (by omega)
    constructor
    · intro k
      have hlen : ([u].flatMap (Upload.occurrences demoMachine)).length = 200 := by
        rw [List.flatMap_singleton, Upload.occurrences_eq, demo_paths hu, List.length_flatMap,
          List.map_replicate, List.sum_replicate_nat, length_pathNodes]
        rfl
      have hcount := List.countP_le_length
        (p := fun n ↦ decide (n.id = k)) (l := [u].flatMap (Upload.occurrences demoMachine))
      rw [nodeTotal_eq_count]
      omega
    · intro c hc k
      have hne : batchStacks u.symlists ≠ [] := by
        rw [(demo_uploads hu).2]
        decide
      have hle : carried Executable.id c (u.payload demoMachine).profiledBinaries k ≤
          c (u.executableRow demoMachine) := by
        rw [Upload.payload_executables, if_neg hne]
        refine (carried_le_sum _ ?_ k).trans ?_
        · exact List.forall_mem_singleton.mpr ((counter_of_mem hc).nonneg demoMachine u)
        · rw [List.map_singleton, List.sum_singleton]
      rw [executableTotal, List.map_singleton, List.sum_singleton]
      exact hle.trans_lt (demo_counters hu c hc)

theorem demo_served : ∃ u, (deployed lenientPostgres demoMachine [demoUpload.args]
    demoSteps).server = reached lenientPostgres demoMachine [u] [0, 0, 0] := by
  have hunposted : ∀ s ∈ (List.replicate 201 demoEvent).flatMap Profiler.passOn,
      ∀ p : Profiler, p.arriving s = none := by
    intro s hs p
    obtain ⟨ctx, _, hs⟩ := List.mem_flatMap.mp hs
    simp only [Profiler.passOn, List.mem_cons, List.not_mem_nil, or_false] at hs
    obtain rfl | rfl | rfl | rfl | rfl := hs <;> rfl
  have hpid : ∀ ctx ∈ List.replicate 201 demoEvent, ctx.record.pid ≠ 0 := by
    intro ctx hctx
    rw [List.eq_of_mem_replicate hctx]
    decide
  have hpassed := Profiler.run_passOns demoMachine demoUpload.args hpid
  have hbatches := (Profiler.collect_batches demoMachine (((List.replicate 201 demoEvent).map
    PerfEvent.record).map (Profiler.stackInfo demoUpload.args))).2
  rw [List.length_map, List.length_map, List.length_replicate] at hbatches
  obtain ⟨batch, hbatch⟩ := List.length_eq_one_iff.mp hbatches
  have harrives : (Profiler.passedOn demoMachine demoUpload.args ((List.replicate 201 demoEvent).map
      PerfEvent.record)).arriving (.post 0 .asIs 0 0 true) =
        some ⟨demoUpload.args, batch, .asIs, 0, 0⟩ := by
    rw [Profiler.arriving, Profiler.passedOn]
    dsimp only
    rw [hbatch]
    rfl
  refine ⟨⟨demoUpload.args, batch, .asIs, 0, 0⟩, ?_⟩
  rw [demoSteps, deployed, run_append, start, List.map_singleton, run_unposted _ _ hunposted,
    hpassed, run, List.foldl_cons, step_client, harrives, ← run, run_serves]
  rfl

theorem demo_stored : ∃ u, (deployed lenientPostgres demoMachine [demoUpload.args]
      demoSteps).uploads = [u] ∧ u.Resolves demoMachine ∧ u.executableId demoMachine = 9544298 ∧
    ∀ k, 1 ≤ k → k ≤ 3 →
      (deployed lenientPostgres demoMachine [demoUpload.args] demoSteps).server.past k = [u] := by
  obtain ⟨u, hserver⟩ := demo_served
  have huploads : (deployed lenientPostgres demoMachine [demoUpload.args] demoSteps).uploads =
      [u] := by
    rw [uploads, hserver]
    exact run_requests lenientPostgres demoMachine [u] [0, 0, 0]
  have hu : u ∈ (deployed lenientPostgres demoMachine [demoUpload.args] demoSteps).uploads := by
    rw [huploads]
    exact List.mem_singleton_self u
  have hresolves : u.Resolves demoMachine := by
    refine ⟨[⟨"main", some "/src/main.c", some 3⟩], ?_, List.cons_ne_nil _ _⟩
    rw [demo_paths hu]
    exact List.mem_replicate.mpr ⟨by decide, rfl⟩
  have hid : u.executableId demoMachine = 9544298 := by
    rw [Upload.executableId, (demo_uploads hu).1]
    decide +kernel
  refine ⟨u, huploads, hresolves, hid, fun k hk hk' ↦ ?_⟩
  have hl := demo_withinLimit demoSteps
  have hsum := @demo_sumsFit demoSteps (by rw [huploads]; exact le_rfl)
  rw [huploads] at hl hsum
  have hacceptable : ∀ v ∈ [u], v.Resolves demoMachine →
      v.Acceptable lenientPostgres demoMachine :=
    List.forall_mem_singleton.mpr fun _ ↦ demo_acceptable hu
  have hturns : ∀ i < [u].length, 3 ≤ [0, 0, 0].count i := by
    intro i hi
    rw [Nat.lt_one_iff.mp hi]
    decide
  have hfinished := finished_of_turns lenientPostgres demoMachine hturns
  rw [hserver, past_of_finished hl hacceptable hsum _ hfinished hk hk']
  exact List.filter_eq_self.mpr (List.forall_mem_singleton.mpr (decide_eq_true hresolves))

theorem demo_samples (steps : List DeploymentStep) {u : Upload}
    (hu : u ∈ (deployed lenientPostgres demoMachine [demoUpload.args] steps).uploads)
    (hid : u.executableId demoMachine = 9544298) : samplesOf demoMachine [u] 9544298 =
      List.replicate 200 [⟨"main", some "/src/main.c", some 3⟩] := by
  have hfilter : [u].filter (fun v ↦ v.executableId demoMachine = 9544298) = [u] :=
    List.filter_eq_self.mpr (List.forall_mem_singleton.mpr (decide_eq_true hid))
  rw [samplesOf, hfilter, List.flatMap_singleton, demo_paths hu]

theorem flame_graph_of_samples_demo :
    let d₁ := deployed lenientPostgres demoMachine [demoUpload.args] demoSteps
    let d₂ := deployed lenientPostgres demoMachine [demoUpload.args]
      (demoSteps ++ [.client 0 (.sample demoEvent)])
    let d₃ := deployed lenientPostgres demoMachine [demoUpload.args]
      (demoSteps ++ [.client 0 (.sample demoEvent)] ++ [.serve 0])
    let answer := getDag .asIs .reversed 9544298 d₁.server.store d₂.server.store d₃.server.store
    let paths := List.replicate 200 [⟨"main", some "/src/main.c", some 3⟩]
    (∃ pb ts, answer = .ok (drawRoot pb ts) ∧ PrefixForest (drawFrame demoMachine) paths [] ts) ∧
    paths.Subperm (sampledPaths demoMachine [demoUpload.args] demoSteps 9544298) := by
  dsimp only
  obtain ⟨u, huploads, _, hid, hpast⟩ := demo_stored
  have hu := List.mem_singleton_self u
  have hsamples := demo_samples demoSteps (huploads.symm ▸ hu) hid
  rw [← hpast 2 (by omega) (by omega)] at hu
  rw [← hpast 3 (by omega) le_rfl] at hsamples
  rw [← hsamples]
  obtain ⟨hdraws, hsampled⟩ := flame_graph_of_samples lenientPostgres demoMachine [demoUpload.args]
    demoSteps [.client 0 (.sample demoEvent)] [.serve 0] .asIs .reversed
    (show (9544298 : Int64) ≠ 123 by decide) (demo_withinLimit _) (demo_framesDistinct _)
    (demo_nodeIdsDistinct _)
  exact ⟨hdraws ⟨u, past_grows _ _ _ _ _ 1 (past_grows _ _ _ _ _ 1 hu), hid⟩, hsampled⟩

/-- The Samples column counts stack places and not samples: as long as the symbolizer answers
for each address, a stored batch counts 25600 for its 200 samples, however deep their stacks
are. -/
theorem every_batch_counts_alike (pg : Postgres)
    (hlen : ∀ pid addrs, (env.blazesym pid addrs).length = addrs.length) (argss : List Args)
    (steps : List DeploymentStep) :
    let s := (deployed pg env argss steps).server
    ∀ r ∈ s.store.executable.rows,
      r.sampleCount = 25600 * (((s.past 2).filter fun u ↦ u.executableId env = r.id).length : ℤ) ∧
      r.sampleCount = 128 * ((samplesOf env (s.past 2) r.id).length : ℤ) := by
  intro s r hr
  obtain ⟨sched, hserves⟩ := serves_deployed pg env argss steps
  have hprov : Provenance env s := by
    change Provenance env (deployed pg env argss steps).server
    rw [hserves.server]
    exact provenance_run pg env _ sched
  have hcounted : ∀ u ∈ s.past 2, u.symlists.length = 200 ∧
      (u.executableRow env).sampleCount = 200 * 128 := by
    intro u hu
    exact uploads_counted hlen pg argss steps u ((System.past_sublist s 2).subset hu)
  have hcount : r.sampleCount =
      25600 * (((s.past 2).filter fun u ↦ u.executableId env = r.id).length : ℤ) := by
    rw [← Table.weight_of_mem Executable.sampleCount hr, hprov.executable_weight .sampleCount]
    apply sum_of_filtered
    intro u hu
    rw [carried_executable (hprov.resolves u (past_mono (by omega) hu)), (hcounted u hu).2]
    simp
  refine ⟨hcount, ?_⟩
  have hsamples : (samplesOf env (s.past 2) r.id).length =
      ((s.past 2).filter fun u ↦ u.executableId env = r.id).length * 200 := by
    have hpaths : ∀ u ∈ (s.past 2).filter fun u ↦ u.executableId env = r.id,
        (u.paths env).length = 200 := by
      intro u hu
      rw [Upload.paths, List.length_map]
      exact (hcounted u (List.mem_filter.mp hu).1).1
    rw [samplesOf, List.length_flatMap, List.map_congr_left hpaths, List.map_const',
      List.sum_replicate_nat]
  rw [hcount, hsamples]
  omega

theorem every_batch_counts_alike_demo :
    let s := (deployed lenientPostgres demoMachine [demoUpload.args] demoSteps).server
    s.store.executable.rows ≠ [] ∧ ∀ r ∈ s.store.executable.rows,
      r.sampleCount = 25600 * (((s.past 2).filter fun u ↦
        u.executableId demoMachine = r.id).length : ℤ) ∧
      r.sampleCount = 128 * ((samplesOf demoMachine (s.past 2) r.id).length : ℤ) := by
  intro s
  refine ⟨?_, every_batch_counts_alike lenientPostgres demo_answers [demoUpload.args] demoSteps⟩
  obtain ⟨u, _, _, _, hpast⟩ := demo_stored
  obtain ⟨sched, hserves⟩ :=
    serves_deployed lenientPostgres demoMachine [demoUpload.args] demoSteps
  have hprov : Provenance demoMachine s := by
    change Provenance demoMachine
      (deployed lenientPostgres demoMachine [demoUpload.args] demoSteps).server
    rw [hserves.server]
    exact provenance_run lenientPostgres demoMachine _ sched
  have hu : u ∈ s.past 2 := by
    rw [hpast 2 (by omega) (by omega)]
    exact List.mem_singleton_self u
  obtain ⟨r, hr, _⟩ := Table.has_iff.mp (hprov.has_executable hu)
  exact List.ne_nil_of_mem hr

end Deployment

end Sto
