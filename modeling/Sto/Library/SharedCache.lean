import Mathlib.Data.List.Basic
import Mathlib.Data.List.Induction
import Mathlib.Logic.Function.Basic

namespace Sto.Library

variable {ι γ α β : Type} {κ ν : ι → Type} {ρ : γ → Type}

/-- A computation that looks values up in caches and puts values into them. -/
inductive Access (κ ν : ι → Type) (α : Type)
  | ret (a : α)
  | get (cache : ι) (key : κ cache) (next : Option (ν cache) → Access κ ν α)
  | insert (cache : ι) (key : κ cache) (value : ν cache) (next : Access κ ν α)

namespace Access

def uncached : Access κ ν α → α
  | ret a => a
  | get _ _ next => (next none).uncached
  | insert _ _ _ next => next.uncached

/-- As long as the caches answer with values of `f`, no answer changes the result, and only
values of `f` are put into them. -/
def Transparent (f : ∀ i, κ i → ν i) : Access κ ν α → Prop
  | ret _ => True
  | get cache key next => (next none).Transparent f ∧ (next (some (f cache key))).Transparent f ∧
      (next (some (f cache key))).uncached = (next none).uncached
  | insert cache key value next => value = f cache key ∧ next.Transparent f

def steps (f : ∀ i, κ i → ν i) : Access κ ν α → ℕ
  | ret _ => 1
  | get cache key next =>
    max ((next none).steps f) ((next (some (f cache key))).steps f) + 1
  | insert _ _ _ next => next.steps f + 1

def getOrInsert (cache : ι) (key : κ cache) (compute : ν cache) (finish : ν cache → α) :
    Access κ ν α :=
  get cache key fun
    | some hit => ret (finish hit)
    | none => insert cache key compute (ret (finish compute))

theorem transparent_getOrInsert (f : ∀ i, κ i → ν i) (cache : ι) (key : κ cache)
    (finish : ν cache → α) : (getOrInsert cache key (f cache key) finish).Transparent f :=
  ⟨⟨rfl, trivial⟩, trivial, rfl⟩

theorem steps_getOrInsert (f : ∀ i, κ i → ν i) (cache : ι) (key : κ cache) (compute : ν cache)
    (finish : ν cache → α) : (getOrInsert cache key compute finish).steps f = 3 := rfl

theorem steps_pos (f : ∀ i, κ i → ν i) (access : Access κ ν α) : 0 < access.steps f := by
  cases access <;> exact Nat.succ_pos _

end Access

/-- A program that calls functions and goes on with what they return. -/
inductive Client (ρ : γ → Type) (α : Type)
  | done (a : α)
  | call (c : γ) (next : ρ c → Client ρ α)

namespace Client

def bind : Client ρ α → (α → Client ρ β) → Client ρ β
  | done a, g => g a
  | call c next, g => call c fun x ↦ (next x).bind g

def foldl (g : β → α → Client ρ β) : β → List α → Client ρ β
  | b, [] => done b
  | b, a :: as => (g b a).bind fun b ↦ foldl g b as

variable (result : ∀ c, ρ c)

def eval : Client ρ α → α
  | done a => a
  | call c next => (next (result c)).eval

def calls : Client ρ α → List (Σ c, ρ c)
  | done _ => []
  | call c next => ⟨c, result c⟩ :: (next (result c)).calls

@[simp] theorem eval_bind (p : Client ρ α) (g : α → Client ρ β) :
    (p.bind g).eval result = (g (p.eval result)).eval result := by
  induction p with
  | done a => rfl
  | call c next ih => exact ih (result c)

theorem eval_foldl (g : β → α → Client ρ β) (b : β) (as : List α) :
    (foldl g b as).eval result = as.foldl (fun b a ↦ (g b a).eval result) b := by
  induction as generalizing b with
  | nil => rfl
  | cons a as ih => rw [foldl, eval_bind, ih, List.foldl_cons]

theorem mem_calls {p : Client ρ α} {r : Σ c, ρ c} (h : r ∈ p.calls result) :
    r.2 = result r.1 := by
  induction p with
  | done a => cases h
  | call c next ih =>
    obtain rfl | h := List.mem_cons.mp h
    · rfl
    · exact ih _ h

end Client

/-- Where a thread is: between two calls, or within one. -/
inductive Activity (κ ν : ι → Type) (ρ : γ → Type) (α : Type)
  | between (rest : Client ρ α)
  | within (c : γ) (access : Access κ ν (ρ c)) (next : ρ c → Client ρ α)

structure Thread (κ ν : ι → Type) (ρ : γ → Type) (α : Type) where
  returned : List (Σ c, ρ c)
  activity : Activity κ ν ρ α

/-- Each cache as all the entries that were put into it and not evicted since. -/
structure Shared (κ ν : ι → Type) (ρ : γ → Type) (α : Type) where
  caches : ∀ i, List (κ i × ν i)
  threads : List (Thread κ ν ρ α)

/-- A step of a thread, with the entry that a cache would answer it with, or an eviction. -/
inductive Event (ι : Type)
  | move (thread : ℕ) (answer : Option ℕ)
  | evict (cache : ι) (entry : ℕ)

def Event.moves (n : ℕ) : Event ι → Bool
  | move thread _ => thread = n
  | evict _ _ => false

def Client.start (p : Client ρ α) : Thread κ ν ρ α := ⟨[], .between p⟩

def Shared.start (clients : List (Client ρ α)) : Shared κ ν ρ α :=
  ⟨fun _ ↦ [], clients.map Client.start⟩

section Steps

variable [DecidableEq ι] [∀ i, DecidableEq (κ i)]

/-- A cache may answer with any value that it holds for the key, or with none. -/
def lookup {i : ι} (entries : List (κ i × ν i)) (key : κ i) (answer : Option ℕ) :
    Option (ν i) :=
  answer.bind fun n ↦ (entries.filter fun entry ↦ entry.1 = key)[n]?.map Prod.snd

variable (body : ∀ c, Access κ ν (ρ c))

def Thread.step (answer : Option ℕ) (caches : ∀ i, List (κ i × ν i)) (t : Thread κ ν ρ α) :
    (∀ i, List (κ i × ν i)) × Thread κ ν ρ α :=
  match t.activity with
  | .between (.done _) => (caches, t)
  | .between (.call c next) => (caches, ⟨t.returned, .within c (body c) next⟩)
  | .within c (.ret a) next => (caches, ⟨t.returned ++ [⟨c, a⟩], .between (next a)⟩)
  | .within c (.get cache key go) next =>
    (caches, ⟨t.returned, .within c (go (lookup (caches cache) key answer)) next⟩)
  | .within c (.insert cache key value go) next =>
    (Function.update caches cache ((key, value) :: caches cache),
      ⟨t.returned, .within c go next⟩)

def Shared.step (s : Shared κ ν ρ α) : Event ι → Shared κ ν ρ α
  | .move n answer =>
    match s.threads[n]? with
    | none => s
    | some t =>
      let after := t.step body answer s.caches
      ⟨after.1, s.threads.set n after.2⟩
  | .evict cache entry =>
    { s with caches := Function.update s.caches cache ((s.caches cache).eraseIdx entry) }

def Shared.run (s : Shared κ ν ρ α) (events : List (Event ι)) : Shared κ ν ρ α :=
  events.foldl (Shared.step body) s

end Steps

def results (body : ∀ c, Access κ ν (ρ c)) (c : γ) : ρ c := (body c).uncached

def Client.steps (f : ∀ i, κ i → ν i) (body : ∀ c, Access κ ν (ρ c)) : Client ρ α → ℕ
  | done _ => 0
  | call c next => (body c).steps f + 1 + (next (results body c)).steps f body

namespace Activity

variable (f : ∀ i, κ i → ν i) (body : ∀ c, Access κ ν (ρ c))

def Transparent : Activity κ ν ρ α → Prop
  | between _ => True
  | within _ access _ => access.Transparent f

def calls : Activity κ ν ρ α → List (Σ c, ρ c)
  | between rest => rest.calls (results body)
  | within c access next => ⟨c, access.uncached⟩ :: (next access.uncached).calls (results body)

def eval : Activity κ ν ρ α → α
  | between rest => rest.eval (results body)
  | within _ access next => (next access.uncached).eval (results body)

def steps : Activity κ ν ρ α → ℕ
  | between rest => rest.steps f body
  | within _ access next => access.steps f + (next access.uncached).steps f body

end Activity

section Transparency

variable {f : ∀ i, κ i → ν i} {body : ∀ c, Access κ ν (ρ c)} {caches : ∀ i, List (κ i × ν i)}

def Holds (f : ∀ i, κ i → ν i) (caches : ∀ i, List (κ i × ν i)) : Prop :=
  ∀ i, ∀ entry ∈ caches i, entry.2 = f i entry.1

theorem Access.transparent_answer {cache : ι} {key : κ cache}
    {go : Option (ν cache) → Access κ ν α} (h : (get cache key go).Transparent f)
    {answer : Option (ν cache)} (ha : answer = none ∨ answer = some (f cache key)) :
    (go answer).Transparent f ∧ (go answer).uncached = (go none).uncached ∧
      (go answer).steps f < (get cache key go).steps f := by
  obtain ⟨hnone, hsome, hsame⟩ := h
  obtain rfl | rfl := ha
  · exact ⟨hnone, rfl, Nat.lt_succ_of_le (Nat.le_max_left _ _)⟩
  · exact ⟨hsome, hsame, Nat.lt_succ_of_le (Nat.le_max_right _ _)⟩

theorem Activity.done_of_steps {activity : Activity κ ν ρ α} (h : activity.steps f body = 0) :
    ∃ a, activity = .between (.done a) := by
  cases activity with
  | between rest =>
    cases rest with
    | done a => exact ⟨a, rfl⟩
    | call c next =>
      change (body c).steps f + 1 + _ = 0 at h
      omega
  | within c access next =>
    have hpos := access.steps_pos f
    change access.steps f + _ = 0 at h
    omega

/-- After `m` steps, what the thread has returned is a part of what the calls of the program
return without the caches, and it comes to the same end. -/
structure Thread.Follows (f : ∀ i, κ i → ν i) (body : ∀ c, Access κ ν (ρ c)) (p : Client ρ α)
    (m : ℕ) (t : Thread κ ν ρ α) : Prop where
  transparent : t.activity.Transparent f
  calls : t.returned ++ t.activity.calls body = p.calls (results body)
  eval : t.activity.eval body = p.eval (results body)
  steps : t.activity.steps f body ≤ p.steps f body - m

theorem Thread.Follows.start (f : ∀ i, κ i → ν i) (body : ∀ c, Access κ ν (ρ c))
    (p : Client ρ α) : Follows f body p 0 p.start :=
  ⟨trivial, rfl, rfl, Nat.le_refl _⟩

theorem Thread.Follows.finished {p : Client ρ α} {m : ℕ} {t : Thread κ ν ρ α}
    (h : t.Follows f body p m) (hm : p.steps f body ≤ m) :
    t = ⟨p.calls (results body), .between (.done (p.eval (results body)))⟩ := by
  have hzero : t.activity.steps f body = 0 := by
    have := h.steps
    omega
  obtain ⟨a, ha⟩ := Activity.done_of_steps hzero
  obtain ⟨returned, activity⟩ := t
  subst ha
  rw [← h.calls, ← h.eval]
  change _ = (⟨returned ++ [], _⟩ : Thread κ ν ρ α)
  rw [List.append_nil]
  rfl

structure Shared.Sound (f : ∀ i, κ i → ν i) (body : ∀ c, Access κ ν (ρ c))
    (clients : List (Client ρ α)) (events : List (Event ι)) (s : Shared κ ν ρ α) : Prop where
  caches : Holds f s.caches
  length : s.threads.length = clients.length
  threads : ∀ (n : ℕ) (p : Client ρ α) (t : Thread κ ν ρ α), clients[n]? = some p →
    s.threads[n]? = some t → t.Follows f body p (events.countP (Event.moves n))

variable {clients : List (Client ρ α)} {events : List (Event ι)} {s : Shared κ ν ρ α}

theorem Shared.Sound.start (f : ∀ i, κ i → ν i) (body : ∀ c, Access κ ν (ρ c))
    (clients : List (Client ρ α)) : Sound f body clients [] (start clients) where
  caches i entry hentry := by cases hentry
  length := List.length_map _
  threads n p t hp ht := by
    rw [Shared.start, List.getElem?_map, hp] at ht
    cases ht
    exact .start f body p

theorem Shared.Sound.client (h : s.Sound f body clients events) {n : ℕ} {t : Thread κ ν ρ α}
    (ht : s.threads[n]? = some t) : ∃ p, clients[n]? = some p :=
  ⟨_, List.getElem?_eq_getElem (h.length ▸ (List.getElem?_eq_some_iff.mp ht).1)⟩

theorem Shared.Sound.returned (h : s.Sound f body clients events) {t : Thread κ ν ρ α}
    (ht : t ∈ s.threads) {r : Σ c, ρ c} (hr : r ∈ t.returned) : r.2 = results body r.1 := by
  obtain ⟨n, hn⟩ := List.getElem?_of_mem ht
  obtain ⟨p, hp⟩ := h.client hn
  apply Client.mem_calls (p := p)
  rw [← (h.threads n p t hp hn).calls]
  exact List.mem_append_left _ hr

theorem Shared.Sound.finished (h : s.Sound f body clients events) {n : ℕ} {p : Client ρ α}
    (hp : clients[n]? = some p) (hmoves : p.steps f body ≤ events.countP (Event.moves n)) :
    s.threads[n]? = some ⟨p.calls (results body), .between (.done (p.eval (results body)))⟩ := by
  have hlt := (List.getElem?_eq_some_iff.mp hp).1
  rw [← h.length] at hlt
  have ht := List.getElem?_eq_getElem hlt
  rw [ht, (h.threads n p _ hp ht).finished hmoves]

theorem countP_moves_ne {n m : ℕ} (h : n ≠ m) (events : List (Event ι)) (answer : Option ℕ) :
    (events ++ [Event.move n answer]).countP (Event.moves m) = events.countP (Event.moves m) := by
  rw [List.countP_append, List.countP_singleton, Event.moves, decide_eq_false h]
  rfl

theorem countP_moves_self (n : ℕ) (events : List (Event ι)) (answer : Option ℕ) :
    (events ++ [Event.move n answer]).countP (Event.moves n) =
      events.countP (Event.moves n) + 1 := by
  rw [List.countP_append, List.countP_singleton, Event.moves, decide_eq_true rfl, if_pos rfl]

theorem Holds.lookup_cases [∀ i, DecidableEq (κ i)] (h : Holds f caches) (i : ι) (key : κ i)
    (answer : Option ℕ) :
    lookup (caches i) key answer = none ∨ lookup (caches i) key answer = some (f i key) := by
  cases hl : lookup (caches i) key answer with
  | none => exact .inl rfl
  | some v =>
    obtain ⟨n, _, hn⟩ := Option.bind_eq_some_iff.mp hl
    obtain ⟨entry, hentry, rfl⟩ := Option.map_eq_some_iff.mp hn
    obtain ⟨hmem, hkey⟩ := List.mem_filter.mp (List.mem_of_getElem? hentry)
    exact .inr (by rw [h i entry hmem, of_decide_eq_true hkey])

variable [DecidableEq ι]

theorem Holds.update (h : Holds f caches) {i : ι} {entries : List (κ i × ν i)}
    (he : ∀ entry ∈ entries, entry.2 = f i entry.1) :
    Holds f (Function.update caches i entries) := by
  intro j entry hentry
  by_cases hj : j = i
  · subst hj
    rw [Function.update_self] at hentry
    exact he entry hentry
  · rw [Function.update_of_ne hj] at hentry
    exact h j entry hentry

theorem Holds.evict (h : Holds f caches) (i : ι) (n : ℕ) :
    Holds f (Function.update caches i ((caches i).eraseIdx n)) :=
  h.update fun entry hentry ↦ h i entry (List.mem_of_mem_eraseIdx hentry)

theorem Holds.insert (h : Holds f caches) (i : ι) (key : κ i) :
    Holds f (Function.update caches i ((key, f i key) :: caches i)) := by
  apply h.update
  intro entry hentry
  rcases List.mem_cons.mp hentry with rfl | hentry
  · rfl
  · exact h i entry hentry

variable [∀ i, DecidableEq (κ i)]

theorem Thread.step_spec (hbody : ∀ c, (body c).Transparent f) (hc : Holds f caches)
    {t : Thread κ ν ρ α} (ht : t.activity.Transparent f) (answer : Option ℕ) :
    let after := t.step body answer caches
    Holds f after.1 ∧ after.2.activity.Transparent f ∧
      after.2.returned ++ after.2.activity.calls body = t.returned ++ t.activity.calls body ∧
      after.2.activity.eval body = t.activity.eval body ∧
      after.2.activity.steps f body ≤ t.activity.steps f body - 1 := by
  obtain ⟨returned, activity⟩ := t
  cases activity with
  | between rest =>
    cases rest with
    | done a => exact ⟨hc, trivial, rfl, rfl, Nat.le_refl 0⟩
    | call c next =>
      refine ⟨hc, hbody c, rfl, rfl, ?_⟩
      change (body c).steps f + (next (results body c)).steps f body ≤
        (body c).steps f + 1 + (next (results body c)).steps f body - 1
      omega
  | within c access next =>
    cases access with
    | ret a =>
      refine ⟨hc, trivial, List.append_assoc _ _ _, rfl, ?_⟩
      change (next a).steps f body ≤ 1 + (next a).steps f body - 1
      omega
    | get cache key go =>
      obtain ⟨hgo, hsame, hsteps⟩ :=
        Access.transparent_answer ht (hc.lookup_cases cache key answer)
      refine ⟨hc, hgo, ?_, ?_, ?_⟩
      · change returned ++ ⟨c, (go _).uncached⟩ :: (next (go _).uncached).calls _ = _
        rw [hsame]
        rfl
      · change (next (go _).uncached).eval _ = _
        rw [hsame]
        rfl
      · change (go _).steps f + (next (go _).uncached).steps f body ≤
          (Access.get cache key go).steps f + (next (go none).uncached).steps f body - 1
        rw [hsame]
        omega
    | insert cache key value go =>
      obtain ⟨rfl, hgo⟩ := ht
      refine ⟨hc.insert cache key, hgo, rfl, rfl, ?_⟩
      change go.steps f + (next go.uncached).steps f body ≤
        go.steps f + 1 + (next go.uncached).steps f body - 1
      omega

theorem Thread.Follows.step {p : Client ρ α} {m : ℕ} {t : Thread κ ν ρ α}
    (h : t.Follows f body p m) (hbody : ∀ c, (body c).Transparent f) (hc : Holds f caches)
    (answer : Option ℕ) : (t.step body answer caches).2.Follows f body p (m + 1) := by
  obtain ⟨_, htransparent, hcalls, heval, hsteps⟩ :=
    Thread.step_spec hbody hc h.transparent answer
  refine ⟨htransparent, hcalls.trans h.calls, heval.trans h.eval, ?_⟩
  have := h.steps
  omega

theorem Shared.Sound.step (h : s.Sound f body clients events)
    (hbody : ∀ c, (body c).Transparent f) (event : Event ι) :
    (s.step body event).Sound f body clients (events ++ [event]) := by
  cases event with
  | evict cache entry =>
    refine ⟨h.caches.evict cache entry, h.length, fun n p t hp ht ↦ ?_⟩
    rw [List.countP_append]
    exact h.threads n p t hp ht
  | move n answer =>
    rw [Shared.step]
    cases hn : s.threads[n]? with
    | none =>
      refine ⟨h.caches, h.length, fun m p t hp ht ↦ ?_⟩
      have hne : n ≠ m := by
        rintro rfl
        rw [hn] at ht
        cases ht
      rw [countP_moves_ne hne]
      exact h.threads m p t hp ht
    | some t =>
      obtain ⟨p, hp⟩ := h.client hn
      have hfollows := h.threads n p t hp hn
      have hcaches := (Thread.step_spec hbody h.caches hfollows.transparent answer).1
      refine ⟨hcaches, List.length_set.trans h.length, fun m q t' hq ht' ↦ ?_⟩
      by_cases hm : n = m
      · subst hm
        rw [List.getElem?_set_self (List.getElem?_eq_some_iff.mp hn).1] at ht'
        cases ht'
        obtain rfl : p = q := Option.some_inj.mp (hp.symm.trans hq)
        rw [countP_moves_self]
        exact hfollows.step hbody h.caches answer
      · rw [List.getElem?_set_ne hm] at ht'
        rw [countP_moves_ne hm]
        exact h.threads m q t' hq ht'

/-- Whatever the threads do, in whatever order, and whatever is evicted meanwhile. -/
theorem Shared.Sound.run (hbody : ∀ c, (body c).Transparent f) (clients : List (Client ρ α))
    (events : List (Event ι)) :
    ((Shared.start clients).run body events).Sound f body clients events := by
  induction events using List.reverseRecOn with
  | nil => exact .start f body clients
  | append_singleton events event ih =>
    rw [Shared.run, List.foldl_append]
    exact ih.step hbody event

end Transparency

end Sto.Library
