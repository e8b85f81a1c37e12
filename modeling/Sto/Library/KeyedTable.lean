import Mathlib.Algebra.BigOperators.Group.List.Basic
import Mathlib.Algebra.GroupWithZero.Nat
import Mathlib.Algebra.Ring.Int.Defs
import Mathlib.Data.List.Nodup
import Mathlib.Data.List.Perm.Basic

namespace Sto.Library

variable {κ ρ : Type} {key : ρ → κ}

/-- Rows that carry their own key, no two of them the same one. A hash map whose
values know their key and a table with a primary key are both of this form. -/
@[ext] structure Table (key : ρ → κ) where
  rows : List ρ
  nodup : (rows.map key).Nodup

/-- How a stored row absorbs a later row with its key. -/
structure Merge (key : ρ → κ) where
  op : ρ → ρ → ρ
  key_op : ∀ a b, key a = key b → key (op a b) = key a

namespace Merge

def first : Merge key := ⟨fun a _ ↦ a, fun _ _ _ ↦ rfl⟩

def last : Merge key := ⟨fun _ b ↦ b, fun _ _ h ↦ h.symm⟩

def absorb (m : Merge key) : Option ρ → ρ → ρ
  | none, r => r
  | some a, r => m.op a r

def absorbAll (m : Merge key) (o : Option ρ) (rs : List ρ) : Option ρ :=
  rs.foldl (fun o r ↦ some (m.absorb o r)) o

@[simp] theorem absorbAll_nil (m : Merge key) (o : Option ρ) : m.absorbAll o [] = o := rfl

@[simp] theorem absorbAll_cons (m : Merge key) (o : Option ρ) (r : ρ) (rs : List ρ) :
    m.absorbAll o (r :: rs) = m.absorbAll (some (m.absorb o r)) rs := rfl

theorem absorbAll_first_some (a : ρ) (rs : List ρ) :
    (first : Merge key).absorbAll (some a) rs = some a := by
  induction rs with
  | nil => rfl
  | cons r rs ih => exact ih

theorem mem_of_absorbAll_last {o : Option ρ} {rs : List ρ} {r : ρ}
    (h : (last : Merge key).absorbAll o rs = some r) : o = some r ∨ r ∈ rs := by
  induction rs generalizing o with
  | nil => exact .inl h
  | cons x rs ih =>
    obtain hx | hr := ih h
    · refine .inr (List.mem_cons.mpr (.inl ?_))
      cases o <;> exact (Option.some_inj.mp hx).symm
    · exact .inr (List.mem_cons_of_mem _ hr)

theorem absorbAll_some (m : Merge key) [Std.Associative m.op] (a : ρ) (rs : List ρ) :
    m.absorbAll (some a) rs = some ((m.absorbAll none rs).elim a (m.op a)) := by
  induction rs generalizing a with
  | nil => rfl
  | cons r rs ih =>
    rw [absorbAll_cons, absorbAll_cons, absorb, absorb, ih, ih r]
    cases m.absorbAll none rs with
    | none => rfl
    | some b => exact congrArg some (Std.Associative.assoc a r b)

theorem absorbAll_gathered (m : Merge key) [Std.Associative m.op] (o : Option ρ) (rs : List ρ) :
    m.absorbAll o (m.absorbAll none rs).toList = m.absorbAll o rs := by
  cases o with
  | none => cases m.absorbAll none rs <;> rfl
  | some a =>
    rw [m.absorbAll_some a rs]
    cases m.absorbAll none rs <;> rfl

theorem absorbAll_eq_none {m : Merge key} {o : Option ρ} {rs : List ρ} :
    m.absorbAll o rs = none ↔ o = none ∧ rs = [] := by
  induction rs generalizing o with
  | nil => simp
  | cons r rs ih => simp [ih]

theorem absorbAll_sum (m : Merge key) (c : ρ → ℤ) (hc : ∀ a b, c (m.op a b) = c a + c b)
    (o : Option ρ) (rs : List ρ) :
    ((m.absorbAll o rs).elim 0 c) = o.elim 0 c + (rs.map c).sum := by
  induction rs generalizing o with
  | nil => simp
  | cons r rs ih =>
    rw [absorbAll_cons, ih]
    cases o with
    | none => simp [absorb]
    | some a => simp [absorb, hc, add_assoc]

theorem absorbAll_map {β : Type} (m : Merge key) (f : ρ → β) (hf : ∀ a b, f (m.op a b) = f a)
    (o : Option ρ) (rs : List ρ) :
    (m.absorbAll o rs).map f = (o.or rs.head?).map f := by
  induction rs generalizing o with
  | nil => simp
  | cons r rs ih =>
    rw [absorbAll_cons, ih]
    cases o with
    | none => rfl
    | some a => exact congrArg some (hf a r)

end Merge

namespace Table

def empty : Table key := ⟨[], List.nodup_nil⟩

def Has (t : Table key) (k : κ) : Prop := k ∈ t.rows.map key

theorem has_iff {t : Table key} {k : κ} : t.Has k ↔ ∃ r ∈ t.rows, key r = k := List.mem_map

theorem nodup_rows (t : Table key) : t.rows.Nodup := List.Nodup.of_map key t.nodup

variable [DecidableEq κ]

def lookup (t : Table key) (k : κ) : Option ρ := t.rows.find? fun r ↦ key r = k

instance (t : Table key) (k : κ) : Decidable (t.Has k) :=
  inferInstanceAs (Decidable (k ∈ t.rows.map key))

theorem nodup_upsert_map (m : Merge key) (t : Table key) (r : ρ) :
    (t.rows.map fun x ↦ if key x = key r then m.op x r else x).map key = t.rows.map key := by
  rw [List.map_map]
  apply List.map_congr_left
  intro x _
  by_cases h : key x = key r
  · simp [h, m.key_op x r h]
  · simp [h]

/-- Merge a row into the stored row with its key, or append it. -/
def upsert (m : Merge key) (t : Table key) (r : ρ) : Table key :=
  if h : t.Has (key r) then
    ⟨t.rows.map fun x ↦ if key x = key r then m.op x r else x, by
      rw [nodup_upsert_map]; exact t.nodup⟩
  else
    ⟨t.rows ++ [r], by
      rw [List.map_append, List.nodup_append]
      refine ⟨t.nodup, List.nodup_singleton _, ?_⟩
      rintro _ ha _ hb rfl
      exact h (by simpa [Has, List.mem_singleton.mp hb] using ha)⟩

def upsertAll (m : Merge key) (t : Table key) (rs : List ρ) : Table key :=
  rs.foldl (upsert m) t

def modify (t : Table key) (k : κ) (f : ρ → ρ) (hf : ∀ r, key (f r) = key r) : Table key :=
  ⟨t.rows.map fun x ↦ if key x = k then f x else x, by
    rw [List.map_map, List.map_congr_left (g := key) fun x _ ↦ ?_]
    · exact t.nodup
    · by_cases h : key x = k <;> simp [h, hf]⟩

theorem lookup_eq_some {t : Table key} {k : κ} {r : ρ} :
    t.lookup k = some r ↔ r ∈ t.rows ∧ key r = k := by
  constructor
  · intro h
    exact ⟨List.mem_of_find?_eq_some h, by simpa using List.find?_some h⟩
  · intro hx
    obtain ⟨hr, rfl⟩ := hx
    cases hs : t.lookup (key r) with
    | none =>
      have h := List.find?_eq_none.mp hs r hr
      simp at h
    | some s =>
      have hk : key s = key r := by simpa using List.find?_some hs
      exact congrArg some (List.inj_on_of_nodup_map t.nodup (List.mem_of_find?_eq_some hs) hr hk)

theorem lookup_key {t : Table key} {k : κ} {r : ρ} (h : t.lookup k = some r) : key r = k :=
  (lookup_eq_some.mp h).2

theorem lookup_eq_none {t : Table key} {k : κ} : t.lookup k = none ↔ ¬ t.Has k := by
  simp [lookup, Has, List.find?_eq_none]

theorem has_iff_lookup {t : Table key} {k : κ} : t.Has k ↔ ∃ r, t.lookup k = some r := by
  rw [← Option.ne_none_iff_exists', Ne, lookup_eq_none, not_not]

@[simp] theorem lookup_empty (k : κ) : (empty : Table key).lookup k = none := rfl

@[simp] theorem lookup_upsert (m : Merge key) (t : Table key) (r : ρ) (k : κ) :
    (t.upsert m r).lookup k =
      if key r = k then some (m.absorb (t.lookup k) r) else t.lookup k := by
  unfold upsert
  by_cases hr : t.Has (key r)
  · obtain ⟨x, hx⟩ := has_iff_lookup.mp hr
    obtain ⟨hxr, hxk⟩ := lookup_eq_some.mp hx
    rw [dif_pos hr]
    by_cases hk : key r = k
    · subst hk
      rw [if_pos rfl, hx, lookup_eq_some]
      exact ⟨List.mem_map.mpr ⟨x, hxr, if_pos hxk⟩, (m.key_op x r hxk).trans hxk⟩
    · rw [if_neg hk]
      cases hs : t.lookup k with
      | some s =>
        obtain ⟨hsr, hsk⟩ := lookup_eq_some.mp hs
        have hne : key s ≠ key r := fun h ↦ hk (h.symm.trans hsk)
        exact lookup_eq_some.mpr ⟨List.mem_map.mpr ⟨s, hsr, if_neg hne⟩, hsk⟩
      | none =>
        rw [lookup_eq_none, Has, nodup_upsert_map]
        exact lookup_eq_none.mp hs
  · rw [dif_neg hr, lookup, List.find?_append]
    change (t.lookup k).or _ = _
    by_cases hk : key r = k
    · subst hk
      rw [lookup_eq_none.mpr hr]
      simp [Merge.absorb]
    · simp [hk]

theorem upsert_first_of_has {t : Table key} {r : ρ} (h : t.Has (key r)) :
    t.upsert .first r = t := by
  apply Table.ext
  simp [upsert, h, Merge.first]

theorem mem_upsert_first {t : Table key} {r x : ρ} (h : x ∈ (t.upsert .first r).rows) :
    x ∈ t.rows ∨ x = r := by
  by_cases hr : t.Has (key r)
  · exact .inl (upsert_first_of_has hr ▸ h)
  · simpa [upsert, hr] using h

theorem upsert_congr {m m' : Merge key} (t : Table key) {r : ρ} (h : ∀ a, m.op a r = m'.op a r) :
    t.upsert m r = t.upsert m' r := by
  simp only [upsert, h]

theorem upsertAll_congr {m m' : Merge key} (t : Table key) {rs : List ρ}
    (h : ∀ a, ∀ r ∈ rs, m.op a r = m'.op a r) : t.upsertAll m rs = t.upsertAll m' rs := by
  induction rs generalizing t with
  | nil => rfl
  | cons r rs ih =>
    have hr := t.upsert_congr fun a ↦ h a r (by simp)
    exact (congrArg (upsertAll m · rs) hr).trans (ih _ fun a x hx ↦ h a x (by simp [hx]))

theorem lookup_upsertAll (m : Merge key) (t : Table key) (rs : List ρ) (k : κ) :
    (t.upsertAll m rs).lookup k =
      m.absorbAll (t.lookup k) (rs.filter fun r ↦ key r = k) := by
  induction rs generalizing t with
  | nil => rfl
  | cons r rs ih =>
    rw [upsertAll, List.foldl_cons]
    apply (ih (t.upsert m r)).trans
    by_cases hk : key r = k <;> simp [hk]

theorem mem_of_lookup_last {rs : List ρ} {k : κ} {r : ρ}
    (h : ((empty : Table key).upsertAll .last rs).lookup k = some r) : r ∈ rs := by
  rw [lookup_upsertAll] at h
  obtain ⟨⟨⟩⟩ | hr := Merge.mem_of_absorbAll_last h
  exact (List.mem_filter.mp hr).1

theorem upsertAll_append (m : Merge key) (t : Table key) (rs ss : List ρ) :
    t.upsertAll m (rs ++ ss) = (t.upsertAll m rs).upsertAll m ss :=
  List.foldl_append

theorem has_upsertAll {m : Merge key} {t : Table key} {rs : List ρ} {k : κ} :
    (t.upsertAll m rs).Has k ↔ t.Has k ∨ ∃ r ∈ rs, key r = k := by
  rw [← not_iff_not, ← lookup_eq_none, lookup_upsertAll, Merge.absorbAll_eq_none, lookup_eq_none,
    List.filter_eq_nil_iff, not_or]
  simp

theorem has_upsert {m : Merge key} {t : Table key} {r : ρ} {k : κ} :
    (t.upsert m r).Has k ↔ t.Has k ∨ key r = k := by
  have h : (t.upsertAll m [r]).Has k ↔ t.Has k ∨ ∃ x ∈ [r], key x = k := has_upsertAll
  simpa [upsertAll] using h

theorem has_upsertAll_of_has {m : Merge key} {t : Table key} {rs : List ρ} {k : κ} (h : t.Has k) :
    (t.upsertAll m rs).Has k := has_upsertAll.mpr (.inl h)

theorem exists_source {β : Type} {m : Merge key} {f : ρ → β} (hf : ∀ a b, f (m.op a b) = f a)
    {t : Table key} {rs : List ρ} {x : ρ} (hx : x ∈ (t.upsertAll m rs).rows) :
    ∃ y, (y ∈ t.rows ∨ y ∈ rs) ∧ key y = key x ∧ f y = f x := by
  have hmap := congrArg (Option.map f) (lookup_upsertAll m t rs (key x))
  rw [m.absorbAll_map f hf, lookup_eq_some.mpr ⟨hx, rfl⟩, Option.map_some] at hmap
  obtain ⟨y, hy, hfy⟩ := Option.map_eq_some_iff.mp hmap.symm
  rcases Option.or_eq_some_iff.mp hy with hy | ⟨_, hy⟩
  · obtain ⟨hyt, hk⟩ := lookup_eq_some.mp hy
    exact ⟨y, .inl hyt, hk, hfy⟩
  · obtain ⟨hyr, hk⟩ := List.mem_filter.mp (List.mem_of_mem_head? hy)
    exact ⟨y, .inr hyr, by simpa using hk, hfy⟩

def Same (t u : Table key) : Prop := ∀ k, t.lookup k = u.lookup k

theorem Same.refl (t : Table key) : t.Same t := fun _ ↦ rfl

theorem Same.symm {t u : Table key} (h : t.Same u) : u.Same t := fun k ↦ (h k).symm

theorem Same.trans {t u v : Table key} (h : t.Same u) (h' : u.Same v) : t.Same v :=
  fun k ↦ (h k).trans (h' k)

theorem Same.has_iff {t u : Table key} (h : t.Same u) {k : κ} : t.Has k ↔ u.Has k := by
  rw [has_iff_lookup, has_iff_lookup, h k]

theorem Same.perm {t u : Table key} (h : t.Same u) : t.rows.Perm u.rows := by
  apply (List.perm_ext_iff_of_nodup t.nodup_rows u.nodup_rows).mpr
  intro r
  have hl := h (key r)
  constructor
  · intro hr
    exact (lookup_eq_some.mp (hl ▸ lookup_eq_some.mpr ⟨hr, rfl⟩)).1
  · intro hr
    exact (lookup_eq_some.mp (hl.symm ▸ lookup_eq_some.mpr ⟨hr, rfl⟩)).1

theorem Same.of_perm {t u : Table key} (h : t.rows.Perm u.rows) : t.Same u := by
  intro k
  ext r
  rw [lookup_eq_some, lookup_eq_some, h.mem_iff]

theorem Same.upsertAll {t u : Table key} (h : t.Same u) (m : Merge key) (rs : List ρ) :
    (t.upsertAll m rs).Same (u.upsertAll m rs) := by
  intro k
  rw [lookup_upsertAll, lookup_upsertAll, h k]

theorem filter_key (t : Table key) {l : List ρ} (hl : l.Perm t.rows) (k : κ) :
    l.filter (fun r ↦ key r = k) = (t.lookup k).toList := by
  cases h : t.lookup k with
  | none =>
    rw [Option.toList_none, List.filter_eq_nil_iff]
    intro r hr hk
    exact lookup_eq_none.mp h (has_iff.mpr ⟨r, hl.mem_iff.mp hr, by simpa using hk⟩)
  | some s =>
    obtain ⟨hs, hsk⟩ := lookup_eq_some.mp h
    have hnodup : (l.filter fun r ↦ key r = k).Nodup :=
      (hl.symm.nodup t.nodup_rows).filter _
    refine List.perm_singleton.mp ((List.perm_ext_iff_of_nodup hnodup (by simp)).mpr fun r ↦ ?_)
    rw [List.mem_filter, hl.mem_iff, decide_eq_true_eq, List.mem_singleton, ← lookup_eq_some, h,
      Option.some_inj, eq_comm]

/-- Rows gathered in a table of their own, taken in any order, have the effect of
the rows they were gathered from. -/
theorem upsertAll_gathered (m : Merge key) [Std.Associative m.op] (t : Table key)
    {l rs : List ρ} (hl : l.Perm ((empty : Table key).upsertAll m rs).rows) :
    (t.upsertAll m l).Same (t.upsertAll m rs) := by
  intro k
  rw [lookup_upsertAll, lookup_upsertAll, filter_key _ hl, lookup_upsertAll]
  exact m.absorbAll_gathered (t.lookup k) _

/-- The measure of the row stored under a key, zero when there is none. -/
def weight (c : ρ → ℤ) (t : Table key) (k : κ) : ℤ := (t.lookup k).elim 0 c

theorem weight_of_mem (c : ρ → ℤ) {t : Table key} {r : ρ} (hr : r ∈ t.rows) :
    t.weight c (key r) = c r := by
  rw [weight, lookup_eq_some.mpr ⟨hr, rfl⟩]
  rfl

theorem weight_upsertAll (m : Merge key) (c : ρ → ℤ) (hc : ∀ a b, c (m.op a b) = c a + c b)
    (t : Table key) (rs : List ρ) (k : κ) :
    (t.upsertAll m rs).weight c k =
      t.weight c k + ((rs.filter fun r ↦ key r = k).map c).sum := by
  rw [weight, lookup_upsertAll, m.absorbAll_sum c hc]
  rfl

theorem sum_filter_key (c : ρ → ℤ) (t : Table key) {l : List ρ} (hl : l.Perm t.rows) (k : κ) :
    ((l.filter fun r ↦ key r = k).map c).sum = t.weight c k := by
  rw [filter_key t hl k, weight]
  cases t.lookup k <;> simp

theorem weight_absorb (m : Merge key) (c : ρ → ℤ) (hc : ∀ a b, c (m.op a b) = c a + c b)
    (t : Table key) (r : ρ) : c (m.absorb (t.lookup (key r)) r) = t.weight c (key r) + c r := by
  rw [weight]
  cases t.lookup (key r) <;> simp [Merge.absorb, hc]

theorem Same.weight {t u : Table key} (h : t.Same u) (c : ρ → ℤ) (k : κ) :
    t.weight c k = u.weight c k := by
  rw [Table.weight, h k]; rfl

theorem filter_of_nodup {l : List ρ} (h : (l.map key).Nodup) {x : ρ} (hx : x ∈ l) :
    l.filter (fun r ↦ key r = key x) = [x] := by
  have ht := filter_key (⟨l, h⟩ : Table key) (.refl l) (key x)
  rw [lookup_eq_some.mpr ⟨hx, rfl⟩] at ht
  exact ht

theorem upsertAll_nodup (m : Merge key) {l : List ρ} (h : (l.map key).Nodup) :
    ((empty : Table key).upsertAll m l).Same ⟨l, h⟩ := by
  intro k
  rw [lookup_upsertAll, filter_key (⟨l, h⟩ : Table key) (.refl l) k]
  cases (⟨l, h⟩ : Table key).lookup k <;> rfl

omit [DecidableEq κ] in
theorem not_mem_take_of_mem_drop {l : List ρ} (h : (l.map key).Nodup) {n : ℕ} {x : ρ}
    (hx : x ∈ l.drop n) : ∀ y ∈ l.take n, key y ≠ key x := by
  intro y hy
  rw [← List.take_append_drop n l, List.map_append, List.nodup_append] at h
  exact h.2.2 (key y) (List.mem_map_of_mem hy) (key x) (List.mem_map_of_mem hx)

theorem weight_upsertAll_take (m : Merge key) (c : ρ → ℤ)
    (hc : ∀ a b, c (m.op a b) = c a + c b) (t : Table key) {l : List ρ} (h : (l.map key).Nodup)
    (n : ℕ) (x : ρ) :
    (x ∈ l.take n → (t.upsertAll m (l.take n)).Has (key x) ∧
      (t.upsertAll m (l.take n)).weight c (key x) = t.weight c (key x) + c x) ∧
    (x ∈ l.drop n → ((t.upsertAll m (l.take n)).Has (key x) ↔ t.Has (key x)) ∧
      (t.upsertAll m (l.take n)).weight c (key x) = t.weight c (key x)) := by
  have htake : ((l.take n).map key).Nodup := h.sublist ((List.take_sublist n l).map key)
  refine ⟨fun hx ↦ ⟨has_upsertAll.mpr (.inr ⟨x, hx, rfl⟩), ?_⟩, fun hx ↦ ?_⟩
  · rw [weight_upsertAll m c hc, filter_of_nodup htake hx]
    simp
  · have hne := not_mem_take_of_mem_drop h hx
    refine ⟨?_, ?_⟩
    · rw [has_upsertAll]
      exact ⟨fun hh ↦ hh.resolve_right fun ⟨y, hy, hk⟩ ↦ hne y hy hk, .inl⟩
    · rw [weight_upsertAll m c hc, List.filter_eq_nil_iff.mpr (by simpa using hne)]
      simp

theorem upsert_split {m : Merge key} {t : Table key} {r : ρ} :
    (t.upsert m r).rows = t.rows ++ [r] ∨
      ∃ as x bs, t.rows = as ++ x :: bs ∧ key x = key r ∧
        (t.upsert m r).rows = as ++ m.op x r :: bs := by
  by_cases hr : t.Has (key r)
  · obtain ⟨x, hx, hk⟩ := has_iff.mp hr
    obtain ⟨as, bs, hrows⟩ := List.append_of_mem hx
    refine .inr ⟨as, x, bs, hrows, hk, ?_⟩
    have hnodup := t.nodup
    rw [hrows, List.map_append, List.map_cons, List.nodup_append, List.nodup_cons] at hnodup
    obtain ⟨_, ⟨hbs, _⟩, has⟩ := hnodup
    have hkeep : ∀ l : List ρ, (∀ y ∈ l, key y ≠ key r) →
        (l.map fun y ↦ if key y = key r then m.op y r else y) = l := by
      intro l hl
      exact (List.map_congr_left fun y hy ↦ if_neg (hl y hy)).trans (List.map_id l)
    rw [upsert, dif_pos hr]
    simp only [hrows, List.map_append, List.map_cons, if_pos hk]
    rw [hkeep as, hkeep bs]
    · intro y hy hyr
      exact hbs (List.mem_map.mpr ⟨y, hy, hyr.trans hk.symm⟩)
    · intro y hy hyr
      exact has (key y) (List.mem_map_of_mem hy) (key x) (by simp) (hyr.trans hk.symm)
  · exact .inl (by rw [upsert, dif_neg hr])

theorem filter_upsertAll_of_others {m : Merge key} {p : ρ → Bool} (hop : ∀ a b, p (m.op a b) = p a)
    {t : Table key} {rs : List ρ} (hrs : ∀ r ∈ rs, p r = false)
    (ht : ∀ a ∈ t.rows, p a = true → ∀ r ∈ rs, key a ≠ key r) :
    (t.upsertAll m rs).rows.filter p = t.rows.filter p := by
  induction rs generalizing t with
  | nil => rfl
  | cons r rs ih =>
    rw [List.forall_mem_cons] at hrs
    have hr : ¬ p r = true := by simp [hrs.1]
    have hstep : (t.upsert m r).rows.filter p = t.rows.filter p := by
      obtain hrows | ⟨as, x, bs, hrows, hk, hrows'⟩ := t.upsert_split (m := m) (r := r)
      · rw [hrows, List.filter_append, List.filter_cons_of_neg hr, List.filter_nil, List.append_nil]
      · have hx : ¬ p x = true := by
          intro hp
          exact ht x (by simp [hrows]) hp r List.mem_cons_self hk
        rw [hrows', hrows, List.filter_append, List.filter_append, List.filter_cons_of_neg hx,
          List.filter_cons_of_neg (by rwa [hop])]
    rw [upsertAll, List.foldl_cons, ← upsertAll, ih hrs.2, hstep]
    intro a ha hp r' hr'
    have hmem : a ∈ (t.upsert m r).rows.filter p := List.mem_filter.mpr ⟨ha, hp⟩
    rw [hstep] at hmem
    exact ht a (List.mem_filter.mp hmem).1 hp r' (List.mem_cons_of_mem _ hr')

theorem prefix_upsertAll_first (t : Table key) (rs : List ρ) :
    t.rows <+: (t.upsertAll .first rs).rows := by
  induction rs generalizing t with
  | nil => exact List.prefix_rfl
  | cons r rs ih =>
    refine List.IsPrefix.trans ?_ (ih (t.upsert .first r))
    by_cases hr : t.Has (key r)
    · simp only [upsert_first_of_has hr, List.prefix_rfl]
    · rw [upsert, dif_neg hr]
      exact List.prefix_append _ _

theorem sum_filter_upsertAll (m : Merge key) (c : ρ → ℤ) (hc : ∀ a b, c (m.op a b) = c a + c b)
    (q : ρ → Bool) (hq : ∀ a b, q (m.op a b) = q a) (t : Table key) (rs : List ρ)
    (hkey : ∀ r ∈ rs, ∀ x ∈ t.rows ++ rs, key x = key r → q x = q r) :
    (((t.upsertAll m rs).rows.filter q).map c).sum =
      ((t.rows.filter q).map c).sum + ((rs.filter q).map c).sum := by
  induction rs generalizing t with
  | nil => exact (add_zero _).symm
  | cons r rs ih =>
    have hstep : (((t.upsert m r).rows.filter q).map c).sum =
        ((t.rows.filter q).map c).sum + (([r].filter q).map c).sum := by
      obtain h | ⟨as, x, bs, hrows, hk, h⟩ := upsert_split (m := m) (t := t) (r := r)
      · rw [h, List.filter_append, List.map_append, List.sum_append]
      · have hx : q x = q r := hkey r (by simp) x (by simp [hrows]) hk
        rw [h, hrows]
        cases hr : q r <;> simp [hq, hx, hr, hc]
        omega
    have hrest := ih (t.upsert m r) fun y hy x hx hk ↦ ?_
    · rw [← List.singleton_append, List.filter_append, List.map_append, List.sum_append,
        ← add_assoc, ← hstep, ← hrest]
      rfl
    · have hy' := hkey y (by simp [hy])
      rcases List.mem_append.mp hx with hx | hx
      · have hx' : x ∈ (t.upsertAll m [r]).rows := hx
        obtain ⟨z, hz, hzk, hzq⟩ := exists_source hq hx'
        rw [← hzq]
        exact hy' z (by simpa [or_assoc] using hz.imp_right Or.inl) (hzk.trans hk)
      · exact hy' x (by simp [hx]) hk

theorem sum_upsertAll_le (m : Merge key) {c : ρ → ℕ} (hc : ∀ a b, c (m.op a b) = c a)
    (t : Table key) (rs : List ρ) :
    ((t.upsertAll m rs).rows.map c).sum ≤ (t.rows.map c).sum + (rs.map c).sum := by
  induction rs generalizing t with
  | nil => exact Nat.le_add_right _ _
  | cons r rs ih =>
    have hstep : ((t.upsert m r).rows.map c).sum ≤ (t.rows.map c).sum + c r := by
      obtain h | ⟨as, x, bs, hrows, _, h⟩ := upsert_split (m := m) (t := t) (r := r)
      · simp [h]
      · simp [h, hrows, hc]
    have hrest : ((t.upsertAll m (r :: rs)).rows.map c).sum ≤
        ((t.upsert m r).rows.map c).sum + (rs.map c).sum := ih (t.upsert m r)
    rw [List.map_cons, List.sum_cons]
    omega

theorem sum_upsertAll_nodup (m : Merge key) (c : ρ → ℕ) {l : List ρ} (h : (l.map key).Nodup) :
    (((empty : Table key).upsertAll m l).rows.map c).sum = (l.map c).sum :=
  ((upsertAll_nodup m h).perm.map c).sum_eq

end Table

end Sto.Library
