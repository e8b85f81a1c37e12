import Sto.Library.KeyedTable

namespace Sto.Library

variable {κ ρ : Type} [DecidableEq κ] {key : ρ → κ} (parent : ρ → Option κ)

namespace Table

def link (t : Table key) (k : κ) : Option (Option κ) := (t.lookup k).map parent

def climb (t : Table key) : ℕ → κ → Option κ
  | 0, k => some k
  | n + 1, k => ((t.lookup k).bind parent).bind (climb t n)

/-- The key is `n` links below a row without parent. -/
inductive Depth (t : Table key) : κ → ℕ → Prop
  | root {k} : t.link parent k = some none → Depth t k 0
  | child {k p n} : t.link parent k = some (some p) → Depth t p n → Depth t k (n + 1)

/-- Every parent is a row, and climbing from any row ends at a row without parent and
never comes back to where it was. -/
structure IsForest (t : Table key) : Prop where
  closed : ∀ r ∈ t.rows, ∀ p, parent r = some p → t.Has p
  reaches_root : ∀ k, t.Has k → ∃ n root, t.climb parent n k = some root ∧
    t.link parent root = some none
  acyclic : ∀ k n, t.Has k → t.climb parent (n + 1) k ≠ some k

variable {parent} {t : Table key}

theorem link_eq_some {k : κ} {o : Option κ} :
    t.link parent k = some o ↔ ∃ r ∈ t.rows, key r = k ∧ parent r = o := by
  simp only [link, Option.map_eq_some_iff, lookup_eq_some, and_assoc]

theorem Depth.has {k : κ} {n : ℕ} (h : t.Depth parent k n) : t.Has k := by
  cases h with
  | root hk =>
    obtain ⟨r, hr, hkey, _⟩ := link_eq_some.mp hk
    exact has_iff.mpr ⟨r, hr, hkey⟩
  | child hk _ =>
    obtain ⟨r, hr, hkey, _⟩ := link_eq_some.mp hk
    exact has_iff.mpr ⟨r, hr, hkey⟩

theorem Depth.unique {k : κ} {m n : ℕ} (hm : t.Depth parent k m) (hn : t.Depth parent k n) :
    m = n := by
  induction hm generalizing n with
  | root hk =>
    cases hn with
    | root _ => rfl
    | child hk' _ =>
      rw [hk] at hk'
      cases hk'
  | child hk _ ih =>
    cases hn with
    | root hk' =>
      rw [hk] at hk'
      cases hk'
    | child hk' hp =>
      rw [hk] at hk'
      cases hk'
      exact congrArg _ (ih hp)

theorem climb_succ {k p : κ} (h : t.link parent k = some (some p)) (n : ℕ) :
    t.climb parent (n + 1) k = t.climb parent n p := by
  obtain ⟨r, hr, hp⟩ := Option.map_eq_some_iff.mp h
  rw [climb, hr, Option.bind_some, hp, Option.bind_some]

theorem climb_add (m n : ℕ) (k : κ) :
    t.climb parent (m + n) k = (t.climb parent m k).bind (t.climb parent n) := by
  induction m generalizing k with
  | zero => rw [Nat.zero_add, climb, Option.bind_some]
  | succ m ih =>
    rw [Nat.succ_add, climb, climb]
    cases (t.lookup k).bind parent with
    | none => rfl
    | some p => exact ih p

theorem climb_root {k : κ} (h : t.link parent k = some none) (n : ℕ) :
    t.climb parent (n + 1) k = none := by
  obtain ⟨r, hr, hp⟩ := Option.map_eq_some_iff.mp h
  rw [climb, hr, Option.bind_some, hp, Option.bind_none]

theorem Depth.reaches_root {k : κ} {n : ℕ} (h : t.Depth parent k n) :
    ∃ root, t.climb parent n k = some root ∧ t.link parent root = some none := by
  induction h with
  | @root k hk => exact ⟨k, rfl, hk⟩
  | child hk _ ih => rwa [climb_succ hk]

theorem Depth.climb {k k' : κ} {n m : ℕ} (h : t.Depth parent k n)
    (hclimb : t.climb parent m k = some k') : ∃ n', t.Depth parent k' n' ∧ n' + m = n := by
  induction m generalizing k n with
  | zero =>
    obtain rfl := Option.some_inj.mp hclimb
    exact ⟨n, h, rfl⟩
  | succ m ih =>
    cases h with
    | root hk =>
      rw [climb_root hk] at hclimb
      cases hclimb
    | child hk hp =>
      rw [climb_succ hk] at hclimb
      obtain ⟨n', hn', rfl⟩ := ih hp hclimb
      exact ⟨n', hn', rfl⟩

theorem Depth.lt_length {k : κ} {n : ℕ} (h : t.Depth parent k n) : n < t.rows.length := by
  have hchain : ∃ ks : List κ, ks.length = n + 1 ∧ ks.Nodup ∧
      ∀ x ∈ ks, ∃ m ≤ n, t.Depth parent x m := by
    induction h with
    | @root k hk => exact ⟨[k], rfl, List.nodup_singleton k, by simpa using .root hk⟩
    | @child k p n hk hp ih =>
      obtain ⟨ks, hlen, hnodup, hdepth⟩ := ih
      refine ⟨k :: ks, by simp [hlen], List.nodup_cons.mpr ⟨fun hmem ↦ ?_, hnodup⟩, ?_⟩
      · obtain ⟨m, hm, hkm⟩ := hdepth k hmem
        have := hkm.unique (.child hk hp)
        omega
      · intro x hx
        rcases List.mem_cons.mp hx with rfl | hx
        · exact ⟨n + 1, le_rfl, .child hk hp⟩
        · obtain ⟨m, hm, hx⟩ := hdepth x hx
          exact ⟨m, by omega, hx⟩
  obtain ⟨ks, hlen, hnodup, hdepth⟩ := hchain
  have hsub : ks ⊆ t.rows.map key := fun x hx ↦ by
    obtain ⟨m, _, hx⟩ := hdepth x hx
    exact hx.has
  have hle := (List.subperm_of_subset hnodup hsub).length_le
  rw [List.length_map] at hle
  omega

theorem isForest_of_depth (h : ∀ k, t.Has k → ∃ n, t.Depth parent k n) : t.IsForest parent where
  closed r hr p hp := by
    have hlink : t.link parent (key r) = some (some p) := link_eq_some.mpr ⟨r, hr, rfl, hp⟩
    obtain ⟨n, hn⟩ := h (key r) (has_iff.mpr ⟨r, hr, rfl⟩)
    cases hn with
    | root hk =>
      rw [hlink] at hk
      cases hk
    | child hk hp =>
      rw [hlink] at hk
      cases hk
      exact hp.has
  reaches_root k hk := by
    obtain ⟨n, hn⟩ := h k hk
    exact ⟨n, hn.reaches_root⟩
  acyclic k n hk hclimb := by
    obtain ⟨d, hd⟩ := h k hk
    obtain ⟨d', hd', hadd⟩ := hd.climb hclimb
    have := hd.unique hd'
    omega

/-- Among finitely many rows a climb that never comes back has to end. -/
theorem exists_depth_of_acyclic (hclosed : ∀ r ∈ t.rows, ∀ p, parent r = some p → t.Has p)
    (hacyclic : ∀ k n, t.Has k → t.climb parent (n + 1) k ≠ some k) {k : κ} (hk : t.Has k) :
    ∃ n, t.Depth parent k n := by
  by_contra hnone
  have hclimb : ∀ n, ∃ p, t.climb parent n k = some p ∧ t.Has p ∧ ∀ d, ¬ t.Depth parent p d := by
    intro n
    induction n with
    | zero => exact ⟨k, rfl, hk, not_exists.mp hnone⟩
    | succ n ih =>
      obtain ⟨p, hp, hhas, hdepth⟩ := ih
      obtain ⟨r, hr, rfl⟩ := has_iff.mp hhas
      cases hq : parent r with
      | none => exact absurd (.root (link_eq_some.mpr ⟨r, hr, rfl, hq⟩)) (hdepth 0)
      | some q =>
        have hlink := link_eq_some.mpr ⟨r, hr, rfl, hq⟩
        refine ⟨q, ?_, hclosed r hr q hq, fun d hd ↦ hdepth (d + 1) (.child hlink hd)⟩
        rw [climb_add, hp]
        exact climb_succ hlink 0
  choose p hp hhas _ using hclimb
  have hinj : ∀ i j, p i = p (i + (j + 1)) → False := by
    intro i j hij
    have hback := hp (i + (j + 1))
    rw [climb_add, hp i, Option.bind_some, ← hij] at hback
    exact hacyclic (p i) j (hhas i) hback
  have hnodup : ((List.range (t.rows.length + 1)).map p).Nodup := by
    refine List.nodup_range.map_on fun i _ j _ hij ↦ ?_
    rcases Nat.lt_trichotomy i j with hlt | heq | hlt
    · obtain ⟨d, rfl⟩ := Nat.exists_eq_add_of_lt hlt
      exact (hinj i d hij).elim
    · exact heq
    · obtain ⟨d, rfl⟩ := Nat.exists_eq_add_of_lt hlt
      exact (hinj j d hij.symm).elim
  have hsub : (List.range (t.rows.length + 1)).map p ⊆ t.rows.map key := by
    intro x hx
    obtain ⟨i, _, rfl⟩ := List.mem_map.mp hx
    exact hhas i
  have hlen := (List.subperm_of_subset hnodup hsub).length_le
  simp only [List.length_map, List.length_range] at hlen
  omega

theorem Depth.mono {u : Table key}
    (h : ∀ k o, t.link parent k = some o → u.link parent k = some o) {k : κ} {n : ℕ}
    (hd : t.Depth parent k n) : u.Depth parent k n := by
  induction hd with
  | root hk => exact .root (h _ _ hk)
  | child hk _ ih => exact .child (h _ _ hk) ih

theorem Same.depth {u : Table key} (h : t.Same u)
    (ht : ∀ k, t.Has k → ∃ n, t.Depth parent k n) : ∀ k, u.Has k → ∃ n, u.Depth parent k n := by
  intro k hk
  obtain ⟨n, hn⟩ := ht k (h.has_iff.mpr hk)
  refine ⟨n, hn.mono fun k o hko ↦ ?_⟩
  rwa [link, ← h k]

/-- The rows of the stream hang below rows seen before them, or below none. -/
def ParentsFirst (key : ρ → κ) (parent : ρ → Option κ) : (κ → Prop) → List ρ → Prop
  | _, [] => True
  | seen, r :: rs => (∀ p, parent r = some p → seen p) ∧
      ParentsFirst key parent (fun k ↦ seen k ∨ key r = k) rs

omit [DecidableEq κ] in
theorem ParentsFirst.mono {seen seen' : κ → Prop} (h : ∀ k, seen k → seen' k) {rs : List ρ}
    (hrs : ParentsFirst key parent seen rs) : ParentsFirst key parent seen' rs := by
  induction rs generalizing seen seen' with
  | nil => trivial
  | cons r rs ih => exact ⟨fun p hp ↦ h p (hrs.1 p hp), ih (fun k ↦ .imp (h k) id) hrs.2⟩

omit [DecidableEq κ] in
theorem ParentsFirst.append {seen : κ → Prop} {rs ss : List ρ}
    (hrs : ParentsFirst key parent seen rs) (hss : ParentsFirst key parent seen ss) :
    ParentsFirst key parent seen (rs ++ ss) := by
  induction rs generalizing seen with
  | nil => exact hss
  | cons r rs ih => exact ⟨hrs.1, ih hrs.2 (hss.mono fun _ ↦ .inl)⟩

omit [DecidableEq κ] in
theorem ParentsFirst.flatMap {α : Type*} {seen : κ → Prop} {f : α → List ρ} {l : List α}
    (h : ∀ a ∈ l, ParentsFirst key parent seen (f a)) :
    ParentsFirst key parent seen (l.flatMap f) := by
  induction l with
  | nil => trivial
  | cons a l ih =>
    rw [List.flatMap_cons]
    exact (h a (by simp)).append (ih fun b hb ↦ h b (by simp [hb]))

variable {m : Merge key} (hm : ∀ a b, parent (m.op a b) = parent a)

include hm

theorem link_upsert {k : κ} {o : Option κ} (r : ρ) (h : t.link parent k = some o) :
    (t.upsert m r).link parent k = some o := by
  obtain ⟨a, ha, rfl⟩ := Option.map_eq_some_iff.mp h
  rw [link, lookup_upsert, ha]
  by_cases hk : key r = k
  · rw [if_pos hk]
    exact congrArg some (hm a r)
  · rw [if_neg hk]
    rfl

theorem upsert_depth (h : ∀ k, t.Has k → ∃ n, t.Depth parent k n) {r : ρ}
    (hr : ∀ p, parent r = some p → t.Has p) {k : κ} (hk : (t.upsert m r).Has k) :
    ∃ n, (t.upsert m r).Depth parent k n := by
  by_cases hold : t.Has k
  · obtain ⟨n, hn⟩ := h k hold
    exact ⟨n, hn.mono fun _ _ ↦ link_upsert hm r⟩
  · obtain rfl := (has_upsert.mp hk).resolve_left hold
    have hlink : (t.upsert m r).link parent (key r) = some (parent r) := by
      rw [link, lookup_upsert, if_pos rfl, lookup_eq_none.mpr hold]
      rfl
    cases hp : parent r with
    | none => exact ⟨0, .root (hp ▸ hlink)⟩
    | some p =>
      obtain ⟨n, hn⟩ := h p (hr p hp)
      exact ⟨n + 1, .child (hp ▸ hlink) (hn.mono fun _ _ ↦ link_upsert hm r)⟩

/-- A stream that names parents first keeps a forest a forest: a row is only ever hung
below a row that is already there, and no row is rehung. -/
theorem upsertAll_depth (h : ∀ k, t.Has k → ∃ n, t.Depth parent k n) {rs : List ρ}
    (hrs : ParentsFirst key parent t.Has rs) :
    ∀ k, (t.upsertAll m rs).Has k → ∃ n, (t.upsertAll m rs).Depth parent k n := by
  induction rs generalizing t with
  | nil => exact h
  | cons r rs ih =>
    apply ih (t := t.upsert m r) (fun k ↦ upsert_depth hm h hrs.1)
    exact hrs.2.mono fun k ↦ has_upsert.mpr

end Table

end Sto.Library
