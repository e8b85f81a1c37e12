import Mathlib.Algebra.BigOperators.Group.List.Basic
import Mathlib.Algebra.GroupWithZero.Nat
import Mathlib.Data.List.Basic
import Mathlib.Data.List.Induction
import Mathlib.Data.List.Perm.Basic

namespace Sto.Library

universe u v w

variable {ρ : Type u} {σ : Type v} {ε : Type w}

/-- A request under way: how many of its transactions have committed, and the error
that stopped it, if any. -/
structure Job (ρ : Type u) (ε : Type w) where
  request : ρ
  stage : ℕ
  error : Option ε

/-- A store shared by requests that each run a sequence of transactions. -/
structure System (ρ : Type u) (σ : Type v) (ε : Type w) where
  store : σ
  jobs : List (Job ρ ε)

def Job.start (r : ρ) : Job ρ ε := ⟨r, 0, none⟩

def System.start (st : σ) (rs : List ρ) : System ρ σ ε := ⟨st, rs.map Job.start⟩

variable (prog : ρ → List (σ → Except ε σ))

def Job.next (j : Job ρ ε) : Option (σ → Except ε σ) :=
  if j.error.isSome then none else (prog j.request)[j.stage]?

namespace System

/-- Job `i` runs its next transaction as one atomic step. -/
def step (s : System ρ σ ε) (i : ℕ) : System ρ σ ε :=
  match s.jobs[i]? with
  | none => s
  | some j =>
    match j.next prog with
    | none => s
    | some tx =>
      match tx s.store with
      | .ok st => ⟨st, s.jobs.set i { j with stage := j.stage + 1 }⟩
      | .error e => ⟨s.store, s.jobs.set i { j with error := some e }⟩

def run (s : System ρ σ ε) (sched : List ℕ) : System ρ σ ε := sched.foldl (step prog) s

theorem run_append (s : System ρ σ ε) (a b : List ℕ) :
    s.run prog (a ++ b) = (s.run prog a).run prog b := List.foldl_append

variable {prog}

theorem step_eq {s : System ρ σ ε} {i : ℕ} {j : Job ρ ε} {tx : σ → Except ε σ}
    (hj : s.jobs[i]? = some j) (ht : j.next prog = some tx) :
    s.step prog i = match tx s.store with
      | .ok st => ⟨st, s.jobs.set i { j with stage := j.stage + 1 }⟩
      | .error e => ⟨s.store, s.jobs.set i { j with error := some e }⟩ := by
  rw [step, hj]
  dsimp only
  rw [ht]

theorem next_eq_some {j : Job ρ ε} {tx : σ → Except ε σ} :
    j.next prog = some tx ↔ j.error = none ∧ (prog j.request)[j.stage]? = some tx := by
  unfold Job.next
  cases j.error <;> simp

theorem step_cases (prog : ρ → List (σ → Except ε σ)) (s : System ρ σ ε) (i : ℕ) :
    s.step prog i = s ∨ ∃ j tx, s.jobs[i]? = some j ∧ j.error = none ∧
      (prog j.request)[j.stage]? = some tx ∧
      ((∃ st, tx s.store = .ok st ∧
        s.step prog i = ⟨st, s.jobs.set i { j with stage := j.stage + 1 }⟩) ∨
      (∃ e, tx s.store = .error e ∧
        s.step prog i = ⟨s.store, s.jobs.set i { j with error := some e }⟩)) := by
  cases hj : s.jobs[i]? with
  | none => exact .inl (by rw [step, hj])
  | some j =>
    cases ht : j.next prog with
    | none => exact .inl (by rw [step, hj]; dsimp only; rw [ht])
    | some tx =>
      obtain ⟨herr, htx⟩ := next_eq_some.mp ht
      refine .inr ⟨j, tx, rfl, herr, htx, ?_⟩
      rw [step_eq hj ht]
      cases hs : tx s.store with
      | ok st => exact .inl ⟨st, rfl, rfl⟩
      | error e => exact .inr ⟨e, rfl, rfl⟩

theorem exists_split {α : Type*} {l : List α} {i : ℕ} {a : α} (h : l[i]? = some a) :
    ∃ as bs, l = as ++ a :: bs ∧ ∀ b, l.set i b = as ++ b :: bs := by
  obtain ⟨hi, rfl⟩ := List.getElem?_eq_some_iff.mp h
  refine ⟨l.take i, l.drop (i + 1), ?_, fun b ↦ List.set_eq_take_append_cons_drop.trans (if_pos hi)⟩
  rw [← List.drop_eq_getElem_cons hi, List.take_append_drop]

theorem set_requests {s : System ρ σ ε} {i : ℕ} {j j' : Job ρ ε} (hj : s.jobs[i]? = some j)
    (h : j'.request = j.request) : (s.jobs.set i j').map Job.request = s.jobs.map Job.request := by
  obtain ⟨as, bs, hl, hset⟩ := exists_split hj
  rw [hset, hl]
  simp [h]

theorem step_requests (s : System ρ σ ε) (i : ℕ) :
    (s.step prog i).jobs.map Job.request = s.jobs.map Job.request := by
  obtain he | ⟨j, tx, hj, _, _, ⟨st, _, he⟩ | ⟨e, _, he⟩⟩ := step_cases prog s i
  · rw [he]
  · rw [he]; exact set_requests hj rfl
  · rw [he]; exact set_requests hj rfl

/-- What holds at the start and is kept by every commit and every failure holds
throughout every interleaving. -/
theorem run_induction {P : System ρ σ ε → Prop} {s : System ρ σ ε} (h : P s)
    (hok : ∀ (s' : System ρ σ ε) i j tx st, P s' →
      s'.jobs.map Job.request = s.jobs.map Job.request → s'.jobs[i]? = some j → j.error = none →
      (prog j.request)[j.stage]? = some tx → tx s'.store = .ok st →
      P ⟨st, s'.jobs.set i { j with stage := j.stage + 1 }⟩)
    (herr : ∀ (s' : System ρ σ ε) i j tx e, P s' →
      s'.jobs.map Job.request = s.jobs.map Job.request → s'.jobs[i]? = some j → j.error = none →
      (prog j.request)[j.stage]? = some tx → tx s'.store = .error e →
      P ⟨s'.store, s'.jobs.set i { j with error := some e }⟩)
    (sched : List ℕ) :
    P (s.run prog sched) ∧ (s.run prog sched).jobs.map Job.request = s.jobs.map Job.request := by
  induction sched using List.reverseRecOn with
  | nil => exact ⟨h, rfl⟩
  | append_singleton sched i ih =>
    obtain ⟨ih, hreq⟩ := ih
    rw [run_append]
    refine ⟨?_, (step_requests _ i).trans hreq⟩
    change P ((s.run prog sched).step prog i)
    obtain he | ⟨j, tx, hj, hn, htx, ⟨st, hst, he⟩ | ⟨e, hst, he⟩⟩ :=
      step_cases prog (s.run prog sched) i
    · rw [he]; exact ih
    · rw [he]; exact hok _ i j tx st ih hreq hj hn htx hst
    · rw [he]; exact herr _ i j tx e ih hreq hj hn htx hst

/-- The requests whose first `k` transactions have committed. -/
def past (k : ℕ) (s : System ρ σ ε) : List ρ :=
  (s.jobs.filter fun j ↦ k ≤ j.stage).map Job.request

theorem past_start (k : ℕ) (st : σ) (rs : List ρ) :
    (start st rs : System ρ σ ε).past (k + 1) = [] := by
  simp [past, start, Job.start]

theorem past_commit {s : System ρ σ ε} {i : ℕ} {j : Job ρ ε} (hj : s.jobs[i]? = some j) (st : σ) :
    ((⟨st, s.jobs.set i { j with stage := j.stage + 1 }⟩ : System ρ σ ε).past (j.stage + 1)).Perm
      (j.request :: s.past (j.stage + 1)) := by
  obtain ⟨as, bs, hl, hset⟩ := exists_split hj
  unfold past
  rw [hset, hl]
  simp

theorem past_commit_ne {s : System ρ σ ε} {i : ℕ} {j : Job ρ ε} (hj : s.jobs[i]? = some j) (st : σ)
    {k : ℕ} (hk : k ≠ j.stage + 1) :
    (⟨st, s.jobs.set i { j with stage := j.stage + 1 }⟩ : System ρ σ ε).past k = s.past k := by
  obtain ⟨as, bs, hl, hset⟩ := exists_split hj
  have hle : k ≤ j.stage + 1 ↔ k ≤ j.stage := by omega
  unfold past
  rw [hset, hl]
  by_cases h : k ≤ j.stage <;> simp [h, hle]

theorem past_fail {s : System ρ σ ε} {i : ℕ} {j : Job ρ ε} (hj : s.jobs[i]? = some j) (st : σ)
    (e : ε) (k : ℕ) :
    (⟨st, s.jobs.set i { j with error := some e }⟩ : System ρ σ ε).past k = s.past k := by
  obtain ⟨as, bs, hl, hset⟩ := exists_split hj
  unfold past
  rw [hset, hl]
  by_cases h : k ≤ j.stage <;> simp [h]

theorem past_sublist (s : System ρ σ ε) (k : ℕ) :
    (s.past k).Sublist (s.jobs.map Job.request) := List.filter_sublist.map _

theorem past_append (st : σ) (js js' : List (Job ρ ε)) (k : ℕ) :
    (⟨st, js ++ js'⟩ : System ρ σ ε).past k =
      (⟨st, js⟩ : System ρ σ ε).past k ++ (⟨st, js'⟩ : System ρ σ ε).past k := by
  rw [past, past, past, List.filter_append, List.map_append]

theorem mem_past {s : System ρ σ ε} {k : ℕ} {r : ρ} :
    r ∈ s.past k ↔ ∃ j ∈ s.jobs, k ≤ j.stage ∧ j.request = r := by
  simp [past, and_assoc]

theorem past_subperm (prog : ρ → List (σ → Except ε σ)) (s : System ρ σ ε) (sched : List ℕ)
    (k : ℕ) : (s.past k).Subperm ((s.run prog sched).past k) := by
  refine (run_induction (P := fun s' ↦ (s.past k).Subperm (s'.past k))
    (List.Subperm.refl _) ?_ ?_ sched).1
  · intro s' i j tx st h _ hj _ _ _
    by_cases hk : k = j.stage + 1
    · subst hk
      apply h.trans
      exact (List.sublist_cons_self _ _).subperm.trans (past_commit hj st).symm.subperm
    · rwa [past_commit_ne hj st hk]
  · intro s' i j tx e h _ hj _ _ _
    rwa [past_fail hj]

theorem step_arrivals (js : List (Job ρ ε)) {s : System ρ σ ε} {i : ℕ} (hi : i < s.jobs.length) :
    (⟨s.store, s.jobs ++ js⟩ : System ρ σ ε).step prog i =
      ⟨(s.step prog i).store, (s.step prog i).jobs ++ js⟩ := by
  have hjob : (s.jobs ++ js)[i]? = s.jobs[i]? := List.getElem?_append_left hi
  have hset : ∀ j, (s.jobs ++ js).set i j = s.jobs.set i j ++ js :=
    fun j ↦ List.set_append_left i j hi
  unfold step
  dsimp only
  rw [hjob]
  cases s.jobs[i]? with
  | none => rfl
  | some j =>
    dsimp only
    cases j.next prog with
    | none => rfl
    | some tx =>
      dsimp only
      cases tx s.store with
      | ok st => exact congrArg (System.mk st) (hset _)
      | error e => exact congrArg (System.mk s.store) (hset _)

theorem length_step (s : System ρ σ ε) (i : ℕ) :
    (s.step prog i).jobs.length = s.jobs.length := by
  have hrequests : (s.step prog i).jobs.map Job.request = s.jobs.map Job.request :=
    step_requests s i
  have h := congrArg List.length hrequests
  rwa [List.length_map, List.length_map] at h

theorem run_arrivals (js : List (Job ρ ε)) {s : System ρ σ ε} {sched : List ℕ}
    (h : ∀ i ∈ sched, i < s.jobs.length) :
    (⟨s.store, s.jobs ++ js⟩ : System ρ σ ε).run prog sched =
      ⟨(s.run prog sched).store, (s.run prog sched).jobs ++ js⟩ := by
  induction sched generalizing s with
  | nil => rfl
  | cons i sched ih =>
    rw [List.forall_mem_cons] at h
    rw [run, List.foldl_cons, step_arrivals js h.1]
    apply ih
    intro k hk
    rw [length_step]
    exact h.2 k hk

theorem step_other (prog : ρ → List (σ → Except ε σ)) (s : System ρ σ ε) {i k : ℕ} (h : k ≠ i) :
    (s.step prog k).jobs[i]? = s.jobs[i]? := by
  obtain he | ⟨j, tx, _, _, _, ⟨st, _, he⟩ | ⟨e, _, he⟩⟩ := step_cases prog s k
  · rw [he]
  · rw [he]
    exact List.getElem?_set_ne h
  · rw [he]
    exact List.getElem?_set_ne h

def AtMost (prog : ρ → List (σ → Except ε σ)) (n : ℕ) (j : Job ρ ε) : Prop :=
  j.next prog = none ∨ (prog j.request).length ≤ j.stage + n

theorem step_atMost {s : System ρ σ ε} {i n : ℕ}
    (h : ∀ j, s.jobs[i]? = some j → AtMost prog (n + 1) j) :
    ∀ j, (s.step prog i).jobs[i]? = some j → AtMost prog n j := by
  intro j' hj'
  cases hj : s.jobs[i]? with
  | none =>
    have hsame : s.step prog i = s := by rw [step, hj]
    rw [hsame, hj] at hj'
    cases hj'
  | some j =>
    have hi := (List.getElem?_eq_some_iff.mp hj).1
    cases ht : j.next prog with
    | none =>
      have hsame : s.step prog i = s := by
        rw [step, hj]
        dsimp only
        rw [ht]
      rw [hsame, hj, Option.some_inj] at hj'
      exact .inl (hj' ▸ ht)
    | some tx =>
      rw [step_eq hj ht] at hj'
      cases htx : tx s.store with
      | ok st =>
        rw [htx] at hj'
        dsimp only at hj'
        rw [List.getElem?_set_self hi, Option.some_inj] at hj'
        subst hj'
        refine .inr ?_
        have hlen := (h j hj).resolve_left (by rw [ht]; exact Option.some_ne_none tx)
        change (prog j.request).length ≤ j.stage + 1 + n
        omega
      | error e =>
        rw [htx] at hj'
        dsimp only at hj'
        rw [List.getElem?_set_self hi, Option.some_inj] at hj'
        subst hj'
        exact .inl rfl

/-- A job that gets as many turns as it has transactions comes to its end, whatever the
others do in the meantime. -/
theorem finishes {s : System ρ σ ε} {sched : List ℕ}
    (h : ∀ i j, s.jobs[i]? = some j → AtMost prog (sched.count i) j) :
    ∀ j ∈ (s.run prog sched).jobs, j.next prog = none := by
  induction sched generalizing s with
  | nil =>
    intro j hj
    obtain ⟨i, hi⟩ := List.mem_iff_getElem?.mp hj
    obtain hend | hlen := h i j hi
    · exact hend
    · have hnone : (prog j.request)[j.stage]? = none := List.getElem?_eq_none_iff.mpr hlen
      rw [Job.next, hnone]
      split <;> rfl
  | cons k sched ih =>
    apply ih
    intro i
    by_cases hik : k = i
    · subst hik
      apply step_atMost
      intro j hj
      have hturn := h k j hj
      rwa [List.count_cons_self] at hturn
    · intro j hj
      rw [step_other prog s hik] at hj
      have hturn := h i j hj
      rwa [List.count_cons_of_ne hik] at hturn

def remaining (prog : ρ → List (σ → Except ε σ)) (s : System ρ σ ε) : ℕ :=
  (s.jobs.map fun j ↦ if j.error.isSome then 0 else (prog j.request).length - j.stage).sum

theorem remaining_start (prog : ρ → List (σ → Except ε σ)) (st : σ) (js : List (Job ρ ε))
    (rs : List ρ) : (⟨st, js ++ rs.map Job.start⟩ : System ρ σ ε).remaining prog =
      (⟨st, js⟩ : System ρ σ ε).remaining prog + (rs.map fun r ↦ (prog r).length).sum := by
  rw [remaining, remaining, List.map_append, List.sum_append, List.map_map]
  rfl

theorem remaining_eq_zero {prog : ρ → List (σ → Except ε σ)} {s : System ρ σ ε} :
    s.remaining prog = 0 ↔ ∀ j ∈ s.jobs, j.next prog = none := by
  rw [remaining, List.sum_eq_zero_iff_forall_eq_nat]
  simp only [List.forall_mem_map, Job.next]
  refine forall₂_congr fun j _ ↦ ?_
  cases j.error with
  | none => simp [Nat.sub_eq_zero_iff_le]
  | some e => simp

theorem step_remaining (prog : ρ → List (σ → Except ε σ)) (s : System ρ σ ε) (i : ℕ) :
    s.step prog i = s ∨ (s.step prog i).remaining prog < s.remaining prog := by
  obtain he | ⟨j, tx, hj, herr, htx, hstep⟩ := step_cases prog s i
  · exact .inl he
  · have hlt := (List.getElem?_eq_some_iff.mp htx).1
    obtain ⟨as, bs, hl, hset⟩ := exists_split hj
    refine .inr ?_
    obtain ⟨st, _, he⟩ | ⟨e, _, he⟩ := hstep <;> rw [he, remaining, remaining, hset, hl] <;>
      simp [herr] <;> omega

theorem next_of_idle {s : System ρ σ ε} {i : ℕ} {j : Job ρ ε} (h : s.step prog i = s)
    (hj : s.jobs[i]? = some j) : j.next prog = none := by
  obtain hnone | ⟨tx, htx⟩ := Option.eq_none_or_eq_some (j.next prog)
  · exact hnone
  · have hi := (List.getElem?_eq_some_iff.mp hj).1
    have hjob := congrArg (·.jobs[i]?) h
    rw [step_eq hj htx] at hjob
    cases hst : tx s.store with
    | ok st =>
      rw [hst] at hjob
      dsimp only at hjob
      rw [List.getElem?_set_self hi, hj, Option.some_inj] at hjob
      exact absurd (congrArg Job.stage hjob) (Nat.succ_ne_self _)
    | error e =>
      rw [hst] at hjob
      dsimp only at hjob
      rw [List.getElem?_set_self hi, hj, Option.some_inj] at hjob
      have herr : some e = j.error := congrArg Job.error hjob
      rw [(next_eq_some.mp htx).1] at herr
      cases herr

end System

/-- One request alone: its transactions in order, up to the first that fails. What the
earlier ones committed stays. -/
def serial : List (σ → Except ε σ) → σ → σ × Option ε
  | [], st => (st, none)
  | tx :: txs, st =>
    match tx st with
    | .ok st' => serial txs st'
    | .error e => (st, some e)

theorem serial_induction {P : σ → Prop} {txs : List (σ → Except ε σ)}
    (hstep : ∀ tx ∈ txs, ∀ st st', P st → tx st = .ok st' → P st') {st : σ} (h : P st) :
    P (serial txs st).1 := by
  induction txs generalizing st with
  | nil => exact h
  | cons tx txs ih =>
    rw [serial]
    cases htx : tx st with
    | ok st' =>
      exact ih (fun t ht ↦ hstep t (List.mem_cons_of_mem _ ht))
        (hstep tx List.mem_cons_self st st' h htx)
    | error e => exact h

def serialAll (rs : List ρ) (st : σ) : σ := rs.foldl (fun st r ↦ (serial (prog r) st).1) st

theorem serialAll_concat (rs : List ρ) (r : ρ) (st : σ) :
    serialAll prog (rs ++ [r]) st = (serial (prog r) (serialAll prog rs st)).1 := by
  simp [serialAll]

namespace System

variable {prog}

theorem run_alone (prog : ρ → List (σ → Except ε σ)) (as bs : List (Job ρ ε)) (r : ρ) (st : σ)
    (txs : List (σ → Except ε σ)) (n : ℕ) (htxs : (prog r).drop n = txs) :
    ∃ sched j, j.request = r ∧ j.next prog = none ∧ j.error = (serial txs st).2 ∧
      (⟨st, as ++ ⟨r, n, none⟩ :: bs⟩ : System ρ σ ε).run prog sched =
        ⟨(serial txs st).1, as ++ j :: bs⟩ := by
  induction txs generalizing st n with
  | nil =>
    refine ⟨[], ⟨r, n, none⟩, rfl, ?_, rfl, rfl⟩
    simpa [Job.next] using List.drop_eq_nil_iff.mp htxs
  | cons tx txs ih =>
    have hn : (prog r)[n]? = some tx := by
      have h := congrArg (·[0]?) htxs
      simpa using h
    have hrest : (prog r).drop (n + 1) = txs := by
      rw [← List.tail_drop, htxs, List.tail_cons]
    have hj : (as ++ (⟨r, n, none⟩ : Job ρ ε) :: bs)[as.length]? = some ⟨r, n, none⟩ := by simp
    have hnext : (⟨r, n, none⟩ : Job ρ ε).next prog = some tx := next_eq_some.mpr ⟨rfl, hn⟩
    have hstep := step_eq (s := ⟨st, as ++ ⟨r, n, none⟩ :: bs⟩) hj hnext
    cases htx : tx st with
    | ok st' =>
      obtain ⟨sched, j, hr, hfin, he, hrun⟩ := ih st' (n + 1) hrest
      refine ⟨as.length :: sched, j, hr, hfin, ?_, ?_⟩
      · rw [he, serial, htx]
      · rw [serial, htx, ← hrun, run, List.foldl_cons, hstep, htx]
        simp [run]
    | error e =>
      refine ⟨[as.length], ⟨r, n, some e⟩, rfl, rfl, ?_, ?_⟩
      · rw [serial, htx]
      · rw [serial, htx, run, List.foldl_cons, hstep, htx]
        simp

theorem run_serially (prog : ρ → List (σ → Except ε σ)) (done : List (Job ρ ε))
    (hdone : ∀ j ∈ done, j.next prog = none) (rs : List ρ) (st : σ) :
    ∃ sched, ((⟨st, done ++ rs.map Job.start⟩ : System ρ σ ε).run prog sched).store =
        serialAll prog rs st ∧
      ∀ j ∈ ((⟨st, done ++ rs.map Job.start⟩ : System ρ σ ε).run prog sched).jobs,
        j.next prog = none := by
  induction rs generalizing st done with
  | nil => exact ⟨[], rfl, by simpa [run] using hdone⟩
  | cons r rs ih =>
    obtain ⟨sched, j, _, hfin, _, hrun⟩ :=
      run_alone prog done (rs.map Job.start) r st (prog r) 0 rfl
    have hdone' : ∀ j' ∈ done ++ [j], j'.next prog = none := by
      intro j' hj'
      rcases List.mem_append.mp hj' with hj' | hj'
      · exact hdone j' hj'
      · rw [List.mem_singleton.mp hj']; exact hfin
    obtain ⟨sched', hstore, hjobs⟩ := ih (done ++ [j]) hdone' (serial (prog r) st).1
    have hstart :
        (⟨st, done ++ (r :: rs).map Job.start⟩ : System ρ σ ε).run prog (sched ++ sched') =
          (⟨(serial (prog r) st).1, (done ++ [j]) ++ rs.map Job.start⟩ :
            System ρ σ ε).run prog sched' := by
      rw [run_append, List.append_assoc, List.singleton_append, ← hrun]
      rfl
    exact ⟨sched ++ sched', by rw [hstart, hstore]; rfl, by rw [hstart]; exact hjobs⟩

/-- Handling requests one after the other is one of their interleavings, and one that
leaves no transaction to run. -/
theorem exists_serial_run (prog : ρ → List (σ → Except ε σ)) (rs : List ρ) (st : σ) :
    ∃ sched, ((start st rs).run prog sched).store = serialAll prog rs st ∧
      ∀ j ∈ ((start st rs).run prog sched).jobs, j.next prog = none :=
  run_serially prog [] (by simp) rs st

end System

end Sto.Library
