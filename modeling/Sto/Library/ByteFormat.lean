import Mathlib.Data.List.Basic
import Mathlib.Tactic.Ring

namespace Sto.Library

def leBytes : ℕ → ℕ → List UInt8
  | 0, _ => []
  | n + 1, x => UInt8.ofNat x :: leBytes n (x / 256)

def ofLeBytes : List UInt8 → ℕ
  | [] => 0
  | b :: bs => b.toNat + 256 * ofLeBytes bs

theorem length_leBytes (n x : ℕ) : (leBytes n x).length = n := by
  induction n generalizing x with
  | zero => rfl
  | succ n ih => exact congrArg (· + 1) (ih (x / 256))

theorem ofLeBytes_leBytes (n : ℕ) {x : ℕ} (h : x < 256 ^ n) : ofLeBytes (leBytes n x) = x := by
  induction n generalizing x with
  | zero =>
    rw [pow_zero] at h
    exact (Nat.lt_one_iff.mp h).symm
  | succ n ih =>
    have hx : x / 256 < 256 ^ n := by
      apply Nat.div_lt_of_lt_mul
      rwa [pow_succ, Nat.mul_comm] at h
    rw [leBytes, ofLeBytes, ih hx, UInt8.toNat_ofNat']
    omega

theorem leBytes_ofLeBytes (bs : List UInt8) : leBytes bs.length (ofLeBytes bs) = bs := by
  induction bs with
  | nil => rfl
  | cons b bs ih =>
    have hb := b.toNat_lt
    have hdiv : (b.toNat + 256 * ofLeBytes bs) / 256 = ofLeBytes bs := by omega
    have hmod : UInt8.ofNat (b.toNat + 256 * ofLeBytes bs) = b := by
      apply UInt8.toNat_inj.mp
      rw [UInt8.toNat_ofNat']
      omega
    rw [List.length_cons, leBytes, ofLeBytes, hdiv, hmod, ih]

theorem ofLeBytes_lt (bs : List UInt8) : ofLeBytes bs < 256 ^ bs.length := by
  induction bs with
  | nil => exact Nat.one_pos
  | cons b bs ih =>
    have hb := b.toNat_lt
    rw [ofLeBytes, List.length_cons, pow_succ]
    omega

/-- How the values of a type lie in memory: one after another in so many bytes each, of which
none is padding. -/
structure ByteFormat (α : Type) where
  size : ℕ
  write : α → List UInt8
  read : List UInt8 → α
  length_write : ∀ a, (write a).length = size
  read_write : ∀ a, read (write a) = a
  write_read : ∀ bytes, bytes.length = size → write (read bytes) = bytes

namespace ByteFormat

variable {α β : Type}

def word (n : ℕ) (toNat : α → ℕ) (ofNat : ℕ → α) (hlt : ∀ a, toNat a < 256 ^ n)
    (hof : ∀ a, ofNat (toNat a) = a) (hto : ∀ x < 256 ^ n, toNat (ofNat x) = x) :
    ByteFormat α where
  size := n
  write a := leBytes n (toNat a)
  read bytes := ofNat (ofLeBytes bytes)
  length_write a := length_leBytes n _
  read_write a := by rw [ofLeBytes_leBytes n (hlt a), hof]
  write_read bytes h := by
    rw [hto _ (h ▸ ofLeBytes_lt bytes), ← h, leBytes_ofLeBytes]

def via (f : ByteFormat α) (rep : β → α) (back : α → β) (hback : ∀ b, back (rep b) = b)
    (hrep : ∀ a, rep (back a) = a) : ByteFormat β where
  size := f.size
  write b := f.write (rep b)
  read bytes := back (f.read bytes)
  length_write b := f.length_write _
  read_write b := by rw [f.read_write, hback]
  write_read bytes h := by rw [hrep, f.write_read bytes h]

def seq (f : ByteFormat α) (g : ByteFormat β) : ByteFormat (α × β) where
  size := f.size + g.size
  write p := f.write p.1 ++ g.write p.2
  read bytes := (f.read (bytes.take f.size), g.read (bytes.drop f.size))
  length_write p := by rw [List.length_append, f.length_write, g.length_write]
  read_write p := by
    rw [List.take_left' (f.length_write p.1), List.drop_left' (f.length_write p.1),
      f.read_write, g.read_write]
  write_read bytes h := by
    rw [f.write_read _ (by rw [List.length_take]; omega),
      g.write_read _ (by rw [List.length_drop]; omega), List.take_append_drop]

def readMany (f : ByteFormat α) : ℕ → List UInt8 → List α
  | 0, _ => []
  | n + 1, bytes => f.read (bytes.take f.size) :: readMany f n (bytes.drop f.size)

variable (f : ByteFormat α)

theorem length_readMany (n : ℕ) (bytes : List UInt8) : (f.readMany n bytes).length = n := by
  induction n generalizing bytes with
  | zero => rfl
  | succ n ih => exact congrArg (· + 1) (ih _)

theorem length_writeMany (l : List α) : (l.flatMap f.write).length = l.length * f.size := by
  induction l with
  | nil => exact (Nat.zero_mul _).symm
  | cons a l ih =>
    rw [List.flatMap_cons, List.length_append, f.length_write, ih, List.length_cons,
      Nat.succ_mul, Nat.add_comm]

theorem readMany_writeMany (l : List α) : f.readMany l.length (l.flatMap f.write) = l := by
  induction l with
  | nil => rfl
  | cons a l ih =>
    rw [List.length_cons, List.flatMap_cons, readMany, List.take_left' (f.length_write a),
      List.drop_left' (f.length_write a), f.read_write, ih]

theorem writeMany_readMany {n : ℕ} {bytes : List UInt8} (h : bytes.length = n * f.size) :
    (f.readMany n bytes).flatMap f.write = bytes := by
  induction n generalizing bytes with
  | zero =>
    rw [Nat.zero_mul] at h
    exact (List.length_eq_zero_iff.mp h).symm
  | succ n ih =>
    rw [Nat.succ_mul] at h
    rw [readMany, List.flatMap_cons, f.write_read _ (by rw [List.length_take]; omega),
      ih (by rw [List.length_drop]; omega), List.take_append_drop]

def array (n : ℕ) : ByteFormat (Vector α n) where
  size := n * f.size
  write v := v.toList.flatMap f.write
  read bytes := ⟨(f.readMany n bytes).toArray, f.length_readMany n bytes⟩
  length_write v := by rw [length_writeMany, Vector.length_toList]
  read_write v := by
    apply Vector.toList_inj.mp
    have hread := f.readMany_writeMany v.toList
    rw [Vector.length_toList] at hread
    exact hread
  write_read bytes h := f.writeMany_readMany h

end ByteFormat

end Sto.Library
