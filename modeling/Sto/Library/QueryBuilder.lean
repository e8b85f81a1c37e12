import Mathlib.Data.List.Basic

namespace Sto.Library

/-- A statement as it is put together: its text, and the parameters that are bound to its
placeholders. -/
structure QueryBuilder (π : Type) where
  query : String
  arguments : List π
  deriving DecidableEq

/-- What a tuple is made of. -/
inductive Push (π : Type)
  | bind (x : π)
  | text (s : String)

variable {α π : Type}

def Push.parameters : Push π → List π
  | bind x => [x]
  | text _ => []

namespace QueryBuilder

def new (init : String) : QueryBuilder π := ⟨init, []⟩

def push (qb : QueryBuilder π) (text : String) : QueryBuilder π :=
  { qb with query := qb.query ++ text }

def pushBind (qb : QueryBuilder π) (x : π) : QueryBuilder π where
  query := qb.query ++ "$" ++ toString (qb.arguments.length + 1)
  arguments := qb.arguments ++ [x]

def pushItem (qb : QueryBuilder π) : Push π → QueryBuilder π
  | .bind x => qb.pushBind x
  | .text s => qb.push s

def separated (separator : String) (f : QueryBuilder π → α → QueryBuilder π) :
    QueryBuilder π → List α → QueryBuilder π
  | qb, [] => qb
  | qb, a :: as => as.foldl (fun qb a ↦ f (qb.push separator) a) (f qb a)

def pushTuple (qb : QueryBuilder π) (items : List (Push π)) : QueryBuilder π :=
  (separated ", " pushItem (qb.push "(") items).push ")"

def pushValues (qb : QueryBuilder π) (tuples : List α) (items : α → List (Push π)) :
    QueryBuilder π :=
  separated ", " (fun qb tuple ↦ qb.pushTuple (items tuple)) (qb.push "VALUES ") tuples

theorem arguments_pushItem (qb : QueryBuilder π) (item : Push π) :
    (qb.pushItem item).arguments = qb.arguments ++ item.parameters := by
  cases item with
  | bind x => rfl
  | text s => exact (List.append_nil _).symm

theorem arguments_separated {f : QueryBuilder π → α → QueryBuilder π} {xs : α → List π}
    (h : ∀ qb a, (f qb a).arguments = qb.arguments ++ xs a) (separator : String)
    (qb : QueryBuilder π) (as : List α) :
    (separated separator f qb as).arguments = qb.arguments ++ as.flatMap xs := by
  cases as with
  | nil => exact (List.append_nil _).symm
  | cons a as =>
    change (as.foldl _ (f qb a)).arguments = _
    rw [List.flatMap_cons, ← List.append_assoc, ← h qb a]
    generalize f qb a = qb
    induction as generalizing qb with
    | nil => exact (List.append_nil _).symm
    | cons a as ih =>
      have ha : (f (qb.push separator) a).arguments = qb.arguments ++ xs a := h _ a
      rw [List.foldl_cons, ih, ha, List.flatMap_cons, List.append_assoc]

theorem arguments_pushValues (qb : QueryBuilder π) (tuples : List α)
    (items : α → List (Push π)) : (qb.pushValues tuples items).arguments =
      qb.arguments ++ tuples.flatMap fun tuple ↦ (items tuple).flatMap Push.parameters := by
  refine arguments_separated ?_ ", " (qb.push "VALUES ") tuples
  intro qb tuple
  exact arguments_separated arguments_pushItem ", " (qb.push "(") (items tuple)

theorem length_pushValues {tuples : List α} {items : α → List (Push π)} {n : ℕ}
    (h : ∀ tuple, ((items tuple).flatMap Push.parameters).length = n) (init text : String) :
    (((new init).pushValues tuples items).push text).arguments.length = n * tuples.length := by
  change ((new init).pushValues tuples items).arguments.length = _
  rw [arguments_pushValues, List.length_append, List.length_flatMap, funext h, List.map_const',
    List.sum_replicate_nat, Nat.mul_comm]
  exact Nat.zero_add _

end QueryBuilder

end Sto.Library
