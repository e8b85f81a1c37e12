import Sto.Library.KeyedTable

namespace Sto.Library

/-- Why a statement, or the commit after it, is refused. -/
inductive SqlError
  | syntaxError
  | tooManyParameters
  | invalidValue
  | uniqueViolation
  | affectedTwice
  | foreignKeyViolation
  deriving DecidableEq, Repr

/-- What a table's columns and indexes ask of the tuples of an insert. Each tuple binds
`binds` parameters; `clashes` are the pairs that a unique index other than the primary
key keeps apart. -/
structure Columns (ρ : Type) where
  binds : ℕ
  bindable : ρ → Bool
  storable : ρ → Bool
  clashes : ρ → ρ → Bool

/-- The wire protocol counts the parameters of a statement in sixteen bits. -/
def maxParameters : ℕ := 65535

variable {κ ρ : Type} [DecidableEq κ] {key : ρ → κ}

def checkTuples (c : Columns ρ) (rs : List ρ) : Except SqlError Unit :=
  if rs.isEmpty then .error .syntaxError
  else if maxParameters < c.binds * rs.length then .error .tooManyParameters
  else if rs.all c.bindable then .ok ()
  else .error .invalidValue

/-- The tuples of `INSERT … ON CONFLICT (key) DO UPDATE`, in `VALUES` order. The keys
of the rows that the statement has already written are in `touched`. -/
def upsertRows (c : Columns ρ) (m : Merge key) :
    List ρ → List κ → Table key → Except SqlError (Table key)
  | [], _, t => .ok t
  | r :: rs, touched, t =>
    if key r ∈ touched then .error .affectedTwice
    else if ¬ t.Has (key r) ∧ t.rows.any (c.clashes · r) then .error .uniqueViolation
    else if c.storable (m.absorb (t.lookup (key r)) r) then
      upsertRows c m rs (key r :: touched) (t.upsert m r)
    else .error .invalidValue

/-- The tuples of `INSERT … ON CONFLICT DO NOTHING`, in `VALUES` order. -/
def insertNewRows (c : Columns ρ) : List ρ → Table key → Except SqlError (Table key)
  | [], t => .ok t
  | r :: rs, t =>
    if t.Has (key r) ∨ t.rows.any (c.clashes · r) then insertNewRows c rs t
    else if c.storable r then insertNewRows c rs (t.upsert .first r)
    else .error .invalidValue

def insertOrUpdate (c : Columns ρ) (m : Merge key) (rs : List ρ) (t : Table key) :
    Except SqlError (Table key) :=
  match checkTuples c rs with
  | .error e => .error e
  | .ok _ => upsertRows c m rs [] t

def insertOrSkip (c : Columns ρ) (rs : List ρ) (t : Table key) : Except SqlError (Table key) :=
  match checkTuples c rs with
  | .error e => .error e
  | .ok _ => insertNewRows c rs t

def Columns.Admits (c : Columns ρ) (rs : List ρ) : Prop :=
  rs ≠ [] ∧ c.binds * rs.length ≤ maxParameters ∧ ∀ r ∈ rs, c.bindable r = true

omit [DecidableEq κ] in
theorem checkTuples_ok {c : Columns ρ} {rs : List ρ} {u : Unit} :
    checkTuples c rs = .ok u ↔ c.Admits rs := by
  unfold checkTuples Columns.Admits
  by_cases h : rs = []
  · simp [h]
  · by_cases hp : maxParameters < c.binds * rs.length
    · simp [h, hp, Nat.not_le.mpr hp]
    · by_cases hb : rs.all c.bindable
      · have hb' := List.all_eq_true.mp hb
        simp [h, hp, Nat.not_lt.mp hp]
      · have hb' := mt List.all_eq_true.mpr hb
        rw [List.isEmpty_eq_false_iff.mpr h]
        simp only [hp, hb, if_false, Bool.false_eq_true, reduceCtorEq, false_iff]
        exact fun hall ↦ hb' hall.2.2

omit [DecidableEq κ] in
theorem checkTuples_tooManyParameters {c : Columns ρ} {rs : List ρ} :
    checkTuples c rs = .error .tooManyParameters ↔ maxParameters < c.binds * rs.length := by
  unfold checkTuples
  by_cases h : rs = []
  · simp [h]
  · by_cases hp : maxParameters < c.binds * rs.length
    · simp [h, hp]
    · by_cases hb : rs.all c.bindable <;> simp [h, hp, hb]

omit [DecidableEq κ] in
theorem checkTuples_syntaxError {c : Columns ρ} {rs : List ρ} :
    checkTuples c rs = .error .syntaxError ↔ rs = [] := by
  unfold checkTuples
  split
  · simpa using List.isEmpty_iff.mp ‹_›
  · rename_i h
    have hne : rs ≠ [] := fun hnil ↦ h (hnil ▸ rfl)
    split <;> [skip; split] <;> simp [hne]

theorem insertOrUpdate_ok {c : Columns ρ} {m : Merge key} {rs : List ρ} {t t' : Table key} :
    insertOrUpdate c m rs t = .ok t' ↔ c.Admits rs ∧ upsertRows c m rs [] t = .ok t' := by
  unfold insertOrUpdate
  rw [← checkTuples_ok (u := ())]
  cases checkTuples c rs <;> simp

theorem insertOrSkip_ok {c : Columns ρ} {rs : List ρ} {t t' : Table key} :
    insertOrSkip c rs t = .ok t' ↔ c.Admits rs ∧ insertNewRows c rs t = .ok t' := by
  unfold insertOrSkip
  rw [← checkTuples_ok (u := ())]
  cases checkTuples c rs <;> simp

theorem upsertRows_error {c : Columns ρ} {m : Merge key} {rs : List ρ} {touched : List κ}
    {t : Table key} {e : SqlError} (h : upsertRows c m rs touched t = .error e) :
    e ≠ .syntaxError := by
  induction rs generalizing touched t with
  | nil => cases h
  | cons r rs ih =>
    unfold upsertRows at h
    split at h
    · cases h
      exact nofun
    · split at h
      · cases h
        exact nofun
      · split at h
        · exact ih h
        · cases h
          exact nofun

theorem insertNewRows_error {c : Columns ρ} {rs : List ρ} {t : Table key} {e : SqlError}
    (h : insertNewRows c rs t = .error e) : e ≠ .syntaxError := by
  induction rs generalizing t with
  | nil => cases h
  | cons r rs ih =>
    unfold insertNewRows at h
    split at h
    · exact ih h
    · split at h
      · exact ih h
      · cases h
        exact nofun

/-- A statement is no well-formed SQL exactly when its `VALUES` is followed by no tuple. -/
theorem insertOrSkip_syntaxError {c : Columns ρ} {rs : List ρ} {t : Table key} :
    insertOrSkip c rs t = .error .syntaxError ↔ rs = [] := by
  unfold insertOrSkip
  rw [← checkTuples_syntaxError (c := c)]
  cases checkTuples c rs with
  | error e => simp
  | ok u => simpa using fun h ↦ insertNewRows_error h rfl

theorem insertOrUpdate_syntaxError {c : Columns ρ} {m : Merge key} {rs : List ρ} {t : Table key} :
    insertOrUpdate c m rs t = .error .syntaxError ↔ rs = [] := by
  unfold insertOrUpdate
  rw [← checkTuples_syntaxError (c := c)]
  cases checkTuples c rs with
  | error e => simp
  | ok u => simpa using fun h ↦ upsertRows_error h rfl

theorem upsertRows_ok {c : Columns ρ} (hc : ∀ a b, c.clashes a b = true → key a = key b)
    {m : Merge key} {rs : List ρ} {touched : List κ} {t t' : Table key} :
    upsertRows c m rs touched t = .ok t' ↔
      (rs.map key).Nodup ∧ (∀ r ∈ rs, key r ∉ touched) ∧
      (∀ r ∈ rs, c.storable (m.absorb (t.lookup (key r)) r) = true) ∧
      t' = t.upsertAll m rs := by
  induction rs generalizing touched t with
  | nil =>
    constructor
    · intro h
      exact ⟨List.nodup_nil, nofun, nofun, (Except.ok.inj h).symm⟩
    · intro hx
      obtain ⟨_, _, _, rfl⟩ := hx
      rfl
  | cons r rs ih =>
    have hclash : ¬ (¬ t.Has (key r) ∧ t.rows.any (c.clashes · r) = true) := by
      intro hx
      obtain ⟨hr, hany⟩ := hx
      obtain ⟨x, hx, hxr⟩ := List.any_eq_true.mp hany
      exact hr (Table.has_iff.mpr ⟨x, hx, hc x r hxr⟩)
    rw [upsertRows, if_neg hclash]
    by_cases htouched : key r ∈ touched
    · simp [htouched]
    · rw [if_neg htouched]
      by_cases hs : c.storable (m.absorb (t.lookup (key r)) r) = true
      · rw [if_pos hs, ih]
        -- the later tuples have other keys, so they still meet the rows of `t`
        have hlater : (∀ x ∈ rs, key x ∉ key r :: touched) →
            ((∀ x ∈ rs, c.storable (m.absorb ((t.upsert m r).lookup (key x)) x) = true) ↔
              ∀ x ∈ rs, c.storable (m.absorb (t.lookup (key x)) x) = true) := by
          intro hne
          apply forall₂_congr
          intro x hx
          have hxr : key r ≠ key x := fun h ↦ hne x hx (by simp [h])
          rw [Table.lookup_upsert, if_neg hxr]
        constructor
        · intro hx
          obtain ⟨hnodup, hne, hst, rfl⟩ := hx
          refine ⟨?_, ?_, ?_, rfl⟩
          · refine List.nodup_cons.mpr ⟨fun hmem ↦ ?_, hnodup⟩
            obtain ⟨x, hx, hxr⟩ := List.mem_map.mp hmem
            exact hne x hx (by simp [hxr])
          · intro x hx
            rcases List.mem_cons.mp hx with rfl | hx
            · exact htouched
            · exact fun h ↦ hne x hx (List.mem_cons_of_mem _ h)
          · intro x hx
            rcases List.mem_cons.mp hx with rfl | hx
            · exact hs
            · exact (hlater hne).mp hst x hx
        · intro hx
          obtain ⟨hnodup, hne, hst, rfl⟩ := hx
          obtain ⟨hr, hnodup⟩ := List.nodup_cons.mp hnodup
          have hne' : ∀ x ∈ rs, key x ∉ key r :: touched := by
            intro x hx h
            rcases List.mem_cons.mp h with h | h
            · exact hr (h ▸ List.mem_map_of_mem hx)
            · exact hne x (List.mem_cons_of_mem _ hx) h
          exact ⟨hnodup, hne', (hlater hne').mpr fun x hx ↦ hst x (List.mem_cons_of_mem _ hx), rfl⟩
      · rw [if_neg hs]
        simp [hs]

theorem insertNewRows_result {c : Columns ρ} {rs : List ρ} {t t' : Table key}
    (h : insertNewRows c rs t = .ok t') : ∃ ss, ss.Sublist rs ∧ t' = t.upsertAll .first ss := by
  induction rs generalizing t with
  | nil => exact ⟨[], List.nil_sublist _, (Except.ok.inj h).symm⟩
  | cons r rs ih =>
    unfold insertNewRows at h
    split at h
    · obtain ⟨ss, hss, ht⟩ := ih h
      exact ⟨ss, hss.cons r, ht⟩
    · split at h
      · obtain ⟨ss, hss, ht⟩ := ih h
        exact ⟨r :: ss, hss.cons_cons r, ht⟩
      · cases h

theorem insertNewRows_eq {c : Columns ρ} {rs : List ρ} {t : Table key}
    (hc : ∀ a ∈ t.rows ++ rs, ∀ b ∈ t.rows ++ rs, c.clashes a b = true → key a = key b) :
    (∀ t', insertNewRows c rs t = .ok t' → t' = t.upsertAll .first rs) ∧
    ((∀ r ∈ rs, c.storable r = true) → insertNewRows c rs t = .ok (t.upsertAll .first rs)) := by
  induction rs generalizing t with
  | nil => exact ⟨fun _ h ↦ (Except.ok.inj h).symm, fun _ ↦ rfl⟩
  | cons r rs ih =>
    have hmem : ∀ x ∈ (t.upsert .first r).rows ++ rs, x ∈ t.rows ++ r :: rs := by
      intro x hx
      rcases List.mem_append.mp hx with hx | hx
      · rcases Table.mem_upsert_first hx with hx | rfl <;> simp [hx]
      · simp [hx]
    obtain ⟨ih₁, ih₂⟩ := ih (t := t.upsert .first r)
      fun a ha b hb ↦ hc a (hmem a ha) b (hmem b hb)
    rw [insertNewRows]
    by_cases hr : t.Has (key r) ∨ t.rows.any (c.clashes · r) = true
    · have hhas : t.Has (key r) := by
        rcases hr with hr | hr
        · exact hr
        · obtain ⟨x, hx, hxr⟩ := List.any_eq_true.mp hr
          exact Table.has_iff.mpr ⟨x, hx, hc x (by simp [hx]) r (by simp) hxr⟩
      rw [if_pos hr, show t.upsertAll .first (r :: rs) = (t.upsert .first r).upsertAll .first rs
        from rfl]
      rw [Table.upsert_first_of_has hhas] at ih₁ ih₂ ⊢
      exact ⟨ih₁, fun hs ↦ ih₂ fun x hx ↦ hs x (by simp [hx])⟩
    · rw [if_neg hr]
      by_cases hs : c.storable r = true
      · rw [if_pos hs]
        exact ⟨ih₁, fun hs ↦ ih₂ fun x hx ↦ hs x (by simp [hx])⟩
      · rw [if_neg hs]
        exact ⟨nofun, fun h ↦ absurd (h r (by simp)) hs⟩

end Sto.Library
