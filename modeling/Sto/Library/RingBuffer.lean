import Mathlib.Data.List.Perm.Basic

namespace Sto.Library

variable {α : Type} {capacity : ℕ}

/-- A buffer for a bounded number of records. Writers reserve their places in it one after the
other and submit them in any order; the reader gets the records in the order of the
reservations, each of them only when it and all before it are submitted. -/
structure RingBuffer (α : Type) (capacity : ℕ) where
  slots : List (α × Bool)
  bounded : slots.length ≤ capacity

namespace RingBuffer

def empty : RingBuffer α capacity := ⟨[], Nat.zero_le _⟩

def records (r : RingBuffer α capacity) : List α := r.slots.map Prod.fst

def reserve (r : RingBuffer α capacity) (a : α) : Option (RingBuffer α capacity) :=
  if h : r.slots.length < capacity then
    some ⟨r.slots ++ [(a, false)], by
      rw [List.length_append, List.length_singleton]
      exact h⟩
  else none

def submit (r : RingBuffer α capacity) (slot : ℕ) : RingBuffer α capacity :=
  ⟨r.slots.modify slot fun s ↦ (s.1, true), by
    rw [List.length_modify]
    exact r.bounded⟩

theorem length_tail_le {l l' : List (α × Bool)} {s : α × Bool} (h : l = s :: l')
    (hl : l.length ≤ capacity) : l'.length ≤ capacity := by
  rw [h, List.length_cons] at hl
  exact Nat.le_of_succ_le hl

def consume (r : RingBuffer α capacity) : Option (α × RingBuffer α capacity) :=
  match h : r.slots with
  | (a, true) :: rest => some (a, ⟨rest, length_tail_le h r.bounded⟩)
  | _ => none

theorem pass_through (a : α) (h : 0 < capacity) :
    ∃ r : RingBuffer α capacity, (empty : RingBuffer α capacity).reserve a = some r ∧
      (r.submit 0).consume = some (a, empty) := by
  refine ⟨⟨[(a, false)], h⟩, ?_, rfl⟩
  rw [reserve]
  exact dif_pos h

theorem reserve_cases (r : RingBuffer α capacity) (a : α) :
    (∃ r', r.reserve a = some r' ∧ r'.records = r.records ++ [a]) ∨
      (r.reserve a = none ∧ r.records.length = capacity) := by
  unfold reserve
  by_cases h : r.slots.length < capacity
  · rw [dif_pos h]
    exact .inl ⟨_, rfl, List.map_append⟩
  · rw [dif_neg h]
    refine .inr ⟨rfl, ?_⟩
    rw [records, List.length_map]
    exact Nat.le_antisymm r.bounded (Nat.le_of_not_lt h)

@[simp] theorem records_submit (r : RingBuffer α capacity) (slot : ℕ) :
    (r.submit slot).records = r.records := by
  rw [records, records, submit]
  apply List.ext_getElem?
  intro i
  rw [List.getElem?_map, List.getElem?_map, List.getElem?_modify]
  cases r.slots[i]? with
  | none => rfl
  | some s => by_cases h : slot = i <;> simp [h]

theorem consume_records {r r' : RingBuffer α capacity} {a : α} (h : r.consume = some (a, r')) :
    r.records = a :: r'.records := by
  unfold consume at h
  split at h
  · rename_i heq
    obtain ⟨rfl, rfl⟩ := Prod.mk.inj (Option.some_inj.mp h)
    exact congrArg (List.map Prod.fst) heq
  · cases h

section Map

variable {β : Type} (f : α → β) (r : RingBuffer α capacity)

def map : RingBuffer β capacity :=
  ⟨r.slots.map fun s ↦ (f s.1, s.2), by
    rw [List.length_map]
    exact r.bounded⟩

theorem map_reserve (a : α) : (r.map f).reserve (f a) = (r.reserve a).map (map f) := by
  have hlen : (r.map f).slots.length = r.slots.length := List.length_map _
  unfold reserve
  by_cases h : r.slots.length < capacity
  · rw [dif_pos h, dif_pos (hlen ▸ h), Option.map_some, Option.some_inj]
    have hslots : (r.map f).slots ++ [(f a, false)] =
        (r.slots ++ [(a, false)]).map fun s ↦ (f s.1, s.2) := by
      rw [List.map_append]
      rfl
    exact (RingBuffer.mk.injEq ..).mpr hslots
  · rw [dif_neg h, dif_neg (hlen ▸ h)]
    rfl

theorem map_submit (slot : ℕ) : (r.map f).submit slot = (r.submit slot).map f := by
  rw [submit, map, map, mk.injEq]
  apply List.ext_getElem?
  intro i
  simp only [submit, List.getElem?_map, List.getElem?_modify]
  cases r.slots[i]? with
  | none => rfl
  | some s => by_cases h : slot = i <;> simp [h]

theorem map_consume :
    (r.map f).consume = r.consume.map fun next ↦ (f next.1, next.2.map f) := by
  obtain ⟨slots, bounded⟩ := r
  cases slots with
  | nil => rfl
  | cons s slots =>
    obtain ⟨a, _ | _⟩ := s
    · rfl
    · rfl

end Map

def unsubmitted (r : RingBuffer α capacity) : ℕ := r.slots.countP fun s ↦ !s.2

theorem reserve_unsubmitted {r r' : RingBuffer α capacity} {a : α} (h : r.reserve a = some r') :
    r'.unsubmitted = r.unsubmitted + 1 := by
  unfold reserve at h
  by_cases hroom : r.slots.length < capacity
  · rw [dif_pos hroom, Option.some_inj] at h
    subst h
    rw [unsubmitted, List.countP_append]
    rfl
  · rw [dif_neg hroom] at h
    cases h

theorem consume_unsubmitted {r r' : RingBuffer α capacity} {a : α} (h : r.consume = some (a, r')) :
    r'.unsubmitted = r.unsubmitted := by
  unfold consume at h
  split at h
  · rename_i heq
    obtain ⟨rfl, rfl⟩ := Prod.mk.inj (Option.some_inj.mp h)
    refine Eq.trans ?_ (congrArg (List.countP fun s ↦ !s.2) heq.symm)
    exact (List.countP_cons_of_neg (by simp)).symm
  · cases h

theorem submit_cases (r : RingBuffer α capacity) (slot : ℕ) :
    r.submit slot = r ∨ (r.submit slot).unsubmitted < r.unsubmitted := by
  have hslots : ∀ l : List (α × Bool), l.modify slot (fun s ↦ (s.1, true)) = l ∨
      (l.modify slot fun s ↦ (s.1, true)).countP (fun s ↦ !s.2) < l.countP fun s ↦ !s.2 := by
    intro l
    induction l generalizing slot with
    | nil => exact .inl (List.modify_nil _ _)
    | cons s l ih =>
      cases slot with
      | zero =>
        obtain ⟨a, _ | _⟩ := s
        · refine .inr ?_
          simp
        · exact .inl rfl
      | succ slot =>
        rw [List.modify_succ_cons, List.countP_cons, List.countP_cons]
        obtain he | hlt := ih slot
        · exact .inl (congrArg (s :: ·) he)
        · exact .inr (Nat.add_lt_add_right hlt _)
  obtain he | hlt := hslots r.slots
  · refine .inl ?_
    cases r
    exact (RingBuffer.mk.injEq ..).mpr he
  · exact .inr hlt

theorem records_eq_nil {r : RingBuffer α capacity} (hsubmit : r.submit 0 = r)
    (hconsume : r.consume = none) : r.records = [] := by
  obtain ⟨slots, bounded⟩ := r
  cases slots with
  | nil => rfl
  | cons s slots =>
    obtain ⟨a, _ | _⟩ := s
    · have hfirst := congrArg (fun r ↦ r.slots.head?) hsubmit
      simp [submit] at hfirst
    · cases hconsume

end RingBuffer

end Sto.Library
