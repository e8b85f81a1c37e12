import Mathlib.Data.List.Basic
import Mathlib.Logic.Relation

namespace Sto.Library

variable {κ : Type}

/-- A transaction that locks rows one by one: those that it holds, and those that it has
still to lock, in order. -/
structure Locker (κ : Type) where
  held : List κ
  waiting : List κ

/-- A row that the other transaction holds cannot be locked. All locks are kept until the
commit. -/
inductive Locker.Move (other : Locker κ) : Locker κ → Locker κ → Prop
  | lock {held k ks} : k ∉ other.held → Move other ⟨held, k :: ks⟩ ⟨held ++ [k], ks⟩
  | commit {held} : Move other ⟨held, []⟩ ⟨[], []⟩

def Locker.Blocked (other l : Locker κ) : Prop := ∃ k ks, l.waiting = k :: ks ∧ k ∈ other.held

structure Locks (κ : Type) where
  left : Locker κ
  right : Locker κ

namespace Locks

def start (xs ys : List κ) : Locks κ := ⟨⟨[], xs⟩, ⟨[], ys⟩⟩

inductive Step : Locks κ → Locks κ → Prop
  | left {l l' r} : Locker.Move r l l' → Step ⟨l, r⟩ ⟨l', r⟩
  | right {l r r'} : Locker.Move l r r' → Step ⟨l, r⟩ ⟨l, r'⟩

def Deadlocked (s : Locks κ) : Prop := s.right.Blocked s.left ∧ s.left.Blocked s.right

def CanDeadlock (xs ys : List κ) : Prop :=
  ∃ s, Relation.ReflTransGen Step (start xs ys) s ∧ s.Deadlocked

end Locks

theorem Locker.advance {other : Locker κ} (held : List κ) {pre rest : List κ}
    (h : ∀ k ∈ pre, k ∉ other.held) :
    Relation.ReflTransGen (Move other) ⟨held, pre ++ rest⟩ ⟨held ++ pre, rest⟩ := by
  induction pre generalizing held with
  | nil => rw [List.append_nil]; exact .refl
  | cons k pre ih =>
    have hrest := ih (held ++ [k]) fun x hx ↦ h x (by simp [hx])
    rw [List.append_assoc, List.singleton_append] at hrest
    exact .head (.lock (h k (by simp))) hrest

theorem Locker.advance_through (other : Locker κ) (pre : List κ) (k : κ) (rest : List κ)
    (h : ∀ x ∈ pre ++ [k], x ∉ other.held) :
    Relation.ReflTransGen (Move other) ⟨[], pre ++ k :: rest⟩ ⟨pre ++ [k], rest⟩ := by
  rw [← List.singleton_append, ← List.append_assoc]
  exact advance [] h

theorem Locker.Blocked.mono {other other' l : Locker κ} (h : Blocked other l)
    (hsub : other.held ⊆ other'.held) : Blocked other' l := by
  obtain ⟨k, ks, hw, hk⟩ := h
  exact ⟨k, ks, hw, hsub hk⟩

theorem Locks.left_run {l l' r : Locker κ} (h : Relation.ReflTransGen (Locker.Move r) l l') :
    Relation.ReflTransGen Step ⟨l, r⟩ ⟨l', r⟩ :=
  h.lift (fun x ↦ (⟨x, r⟩ : Locks κ)) fun _ _ ↦ .left

theorem Locks.right_run {l r r' : Locker κ} (h : Relation.ReflTransGen (Locker.Move l) r r') :
    Relation.ReflTransGen Step ⟨l, r⟩ ⟨l, r'⟩ :=
  h.lift (fun x ↦ (⟨l, x⟩ : Locks κ)) fun _ _ ↦ .right

variable [DecidableEq κ] {xs ys : List κ}

def firstShared (xs ys : List κ) : Option κ := xs.find? fun k ↦ k ∈ ys

theorem firstShared_eq_some {a : κ} : firstShared xs ys = some a ↔
    a ∈ ys ∧ ∃ as bs, xs = as ++ a :: bs ∧ ∀ k ∈ as, k ∉ ys := by
  simp [firstShared, List.find?_eq_some_iff_append]

theorem firstShared_eq_none : firstShared xs ys = none ↔ ∀ k ∈ xs, k ∉ ys := by
  simp [firstShared]

theorem exists_firstShared (h : ∃ k ∈ xs, k ∈ ys) : ∃ a, firstShared xs ys = some a := by
  cases hs : firstShared xs ys with
  | none =>
    obtain ⟨k, hk, hky⟩ := h
    exact absurd hky (firstShared_eq_none.mp hs k hk)
  | some a => exact ⟨a, rfl⟩

theorem Locker.run_until_blocked {other : Locker κ} (held : List κ) {ks : List κ}
    (h : ∃ k ∈ ks, k ∈ other.held) :
    ∃ l, Relation.ReflTransGen (Move other) ⟨held, ks⟩ l ∧ Blocked other l ∧ held ⊆ l.held := by
  obtain ⟨c, hc⟩ := exists_firstShared h
  obtain ⟨hheld, pre, post, rfl, hpre⟩ := firstShared_eq_some.mp hc
  exact ⟨⟨held ++ pre, c :: post⟩, advance held hpre, ⟨c, post, rfl, hheld⟩,
    List.subset_append_left _ _⟩

def Locker.Follows (xs : List κ) (l : Locker κ) : Prop :=
  l.held ++ l.waiting = xs ∨ l = ⟨[], []⟩

omit [DecidableEq κ] in
theorem Locker.Follows.move {l l' other : Locker κ} (h : l.Follows xs) (hm : Move other l l') :
    l'.Follows xs := by
  cases hm with
  | lock hk =>
    rcases h with h | h
    · exact .inl (by simpa using h)
    · cases h
  | commit => exact .inr rfl

/-- What every reachable state has: both transactions follow their order, and no row is
held by both. -/
structure Locks.Exclusive (xs ys : List κ) (s : Locks κ) : Prop where
  left : s.left.Follows xs
  right : s.right.Follows ys
  disjoint : ∀ k ∈ s.left.held, k ∉ s.right.held

omit [DecidableEq κ] in
theorem Locks.Exclusive.step {s s' : Locks κ} (h : s.Exclusive xs ys) (hs : Step s s') :
    s'.Exclusive xs ys := by
  obtain ⟨hl, hr, hd⟩ := h
  cases hs with
  | left hm =>
    refine ⟨hl.move hm, hr, fun x hx ↦ ?_⟩
    cases hm with
    | lock hk =>
      rcases List.mem_append.mp hx with hx | hx
      · exact hd x hx
      · rw [List.mem_singleton.mp hx]
        exact hk
    | commit => cases hx
  | right hm =>
    refine ⟨hl, hr.move hm, fun x hx hx' ↦ ?_⟩
    cases hm with
    | lock hk =>
      rcases List.mem_append.mp hx' with hx' | hx'
      · exact hd x hx hx'
      · rw [List.mem_singleton.mp hx'] at hx
        exact hk hx
    | commit => cases hx'

omit [DecidableEq κ] in
theorem Locks.exclusive_of_reachable {s : Locks κ}
    (h : Relation.ReflTransGen Step (start xs ys) s) : s.Exclusive xs ys := by
  induction h with
  | refl => exact ⟨.inl rfl, .inl rfl, nofun⟩
  | tail _ hs ih => exact ih.step hs

theorem Locker.Follows.holds_first {l : Locker κ} (h : l.Follows xs) (hwait : l.waiting ≠ [])
    (hheld : ∃ k ∈ l.held, k ∈ ys) : ∃ a ∈ l.held, firstShared xs ys = some a := by
  obtain hxs | rfl := h
  · obtain ⟨a, ha⟩ := exists_firstShared hheld
    refine ⟨a, List.mem_of_find?_eq_some ha, ?_⟩
    rw [firstShared, ← hxs, List.find?_append, ← firstShared, ha]
    rfl
  · exact absurd rfl hwait

namespace Locks

theorem firstShared_ne (h : CanDeadlock xs ys) : firstShared xs ys ≠ firstShared ys xs := by
  obtain ⟨s, hs, ⟨k, ks, hk, hkheld⟩, l, ls, hl, hlheld⟩ := h
  obtain ⟨hleft, hright, hdisjoint⟩ := exclusive_of_reachable hs
  have hkx : k ∈ xs := by
    rcases hleft with hleft | hleft
    · rw [← hleft, hk]; simp
    · rw [hleft] at hk; cases hk
  have hly : l ∈ ys := by
    rcases hright with hright | hright
    · rw [← hright, hl]; simp
    · rw [hright] at hl; cases hl
  obtain ⟨a, ha, hxs⟩ := hleft.holds_first (by simp [hk]) ⟨l, hlheld, hly⟩
  obtain ⟨b, hb, hys⟩ := hright.holds_first (by simp [hl]) ⟨k, hkheld, hkx⟩
  rw [hxs, hys]
  intro h
  obtain rfl := Option.some_inj.mp h
  exact hdisjoint a ha hb

theorem deadlock_of_firstShared_ne {a b : κ} (hx : firstShared xs ys = some a)
    (hy : firstShared ys xs = some b) (hab : a ≠ b) : CanDeadlock xs ys := by
  obtain ⟨hay, as, as', rfl, has⟩ := firstShared_eq_some.mp hx
  obtain ⟨hbx, bs, bs', rfl, hbs⟩ := firstShared_eq_some.mp hy
  have hbas : b ∉ as ++ [a] := by
    intro hb
    rcases List.mem_append.mp hb with hb | hb
    · exact has b hb (by simp)
    · exact hab (List.mem_singleton.mp hb).symm
  have hbas' : b ∈ as' := by
    rcases List.mem_append.mp hbx with hb | hb
    · exact absurd (List.mem_append_left _ hb) hbas
    · exact (List.mem_cons.mp hb).resolve_left (Ne.symm hab)
  have habs' : a ∈ bs' := by
    rcases List.mem_append.mp hay with ha | ha
    · exact absurd (by simp) (hbs a ha)
    · exact (List.mem_cons.mp ha).resolve_left hab
  have hfree : ∀ k ∈ bs ++ [b], k ∉ as ++ [a] := by
    intro k hk hk'
    rcases List.mem_append.mp hk with hk | hk
    · apply hbs k hk
      rw [← List.singleton_append, ← List.append_assoc]
      exact List.mem_append_left _ hk'
    · exact hbas (List.mem_singleton.mp hk ▸ hk')
  -- the left transaction locks `a`, the right one locks `b`
  have hleft := left_run (Locker.advance_through ⟨[], bs ++ b :: bs'⟩ as a as' fun _ _ ↦ nofun)
  have hright := right_run (Locker.advance_through ⟨as ++ [a], as'⟩ bs b bs' hfree)
  -- both go on until they wait
  obtain ⟨l, hl, hlblocked, hlheld⟩ := Locker.run_until_blocked (as ++ [a])
    (⟨b, hbas', by simp⟩ : ∃ k ∈ as', k ∈ (⟨bs ++ [b], bs'⟩ : Locker κ).held)
  obtain ⟨r, hr, hrblocked, hrheld⟩ := Locker.run_until_blocked (bs ++ [b])
    (⟨a, habs', hlheld (by simp)⟩ : ∃ k ∈ bs', k ∈ l.held)
  exact ⟨⟨l, r⟩, ((hleft.trans hright).trans (left_run hl)).trans (right_run hr),
    hlblocked.mono hrheld, hrblocked⟩

/-- Two transactions can deadlock exactly when they share rows and do not begin with the
same one of them. -/
theorem canDeadlock_iff : CanDeadlock xs ys ↔ firstShared xs ys ≠ firstShared ys xs := by
  refine ⟨firstShared_ne, fun h ↦ ?_⟩
  cases hx : firstShared xs ys with
  | none =>
    have hnone : firstShared ys xs = none :=
      firstShared_eq_none.mpr fun k hk hk' ↦ firstShared_eq_none.mp hx k hk' hk
    exact absurd (hx.trans hnone.symm) h
  | some a =>
    obtain ⟨ha, as, as', hxs, _⟩ := firstShared_eq_some.mp hx
    obtain ⟨b, hy⟩ := exists_firstShared (⟨a, ha, by simp [hxs]⟩ : ∃ k ∈ ys, k ∈ xs)
    apply deadlock_of_firstShared_ne hx hy
    rintro rfl
    exact h (hx.trans hy.symm)

end Locks

end Sto.Library
