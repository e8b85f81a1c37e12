import Sto.Client
import Mathlib.Tactic.IntervalCases

namespace Sto

theorem toList_loop (bytes : ByteArray) (i : ℕ) (read : List UInt8) :
    ByteArray.toList.loop bytes i read = read.reverse ++ bytes.data.toList.drop i := by
  fun_induction ByteArray.toList.loop bytes i read with
  | case1 i read hlt ih =>
    have hnext : bytes.data.toList.drop i = bytes.get! i :: bytes.data.toList.drop (i + 1) := by
      rw [List.drop_eq_getElem_cons (show i < bytes.data.toList.length from hlt)]
      exact congrArg (· :: _) (getElem!_pos bytes.data i hlt).symm
    rw [ih, hnext, List.reverse_cons, List.append_assoc, List.singleton_append]
  | case2 i read hge =>
    have hend : bytes.data.toList.drop i = [] := List.drop_eq_nil_of_le (Nat.not_lt.mp hge)
    rw [hend, List.append_nil]

theorem utf8_eq (s : String) : utf8 s = s.toByteArray.data.toList := by
  rw [utf8, ByteArray.toList, toList_loop]
  rfl

theorem utf8_empty : utf8 "" = [] := by
  rw [utf8_eq]
  rfl

theorem utf8_append (s t : String) : utf8 (s ++ t) = utf8 s ++ utf8 t := by
  rw [utf8_eq, utf8_eq, utf8_eq, String.toByteArray_append, ByteArray.toList_data_append]

theorem utf8_inj {s t : String} : utf8 s = utf8 t ↔ s = t := by
  rw [utf8_eq, utf8_eq, Array.toList_inj, ByteArray.ext_iff.symm, String.toByteArray_inj]

@[simp] theorem length_toBeBytes64 (x : Int64) : (toBeBytes64 x).length = 8 := rfl

@[simp] theorem length_toBeBytes32 (x : Int32) : (toBeBytes32 x).length = 4 := rfl

theorem eq_of_bytes {a b : ℕ} (n : ℕ) (hrest : a >>> (8 * n) = b >>> (8 * n))
    (h : ∀ i < n, (a >>> (8 * i)) % 256 = (b >>> (8 * i)) % 256) : a = b := by
  induction n with
  | zero => exact hrest
  | succ n ih =>
    refine ih ?_ fun i hi ↦ h i (by omega)
    have hbyte := h n (by omega)
    rw [Nat.mul_add, Nat.shiftRight_add, Nat.shiftRight_add, Nat.shiftRight_eq_div_pow _ (8 * 1),
      Nat.shiftRight_eq_div_pow _ (8 * 1)] at hrest
    omega

theorem toBeBytes64_inj {x y : Int64} : toBeBytes64 x = toBeBytes64 y ↔ x = y := by
  refine ⟨fun h ↦ ?_, fun h ↦ h ▸ rfl⟩
  simp only [toBeBytes64, List.map_cons, List.map_nil, List.cons.injEq, and_true,
    ← UInt8.toNat_inj, UInt64.toNat_toUInt8, UInt64.toNat_shiftRight, UInt64.reduceToNat,
    Nat.reduceMod, Nat.reducePow] at h
  obtain ⟨h₇, h₆, h₅, h₄, h₃, h₂, h₁, h₀⟩ := h
  have hrest : ∀ z : Int64, z.toUInt64.toNat >>> (8 * 8) = 0 := fun z ↦
    Nat.shiftRight_eq_zero _ _ z.toUInt64.toNat_lt
  refine congrArg UInt64.toInt64 (UInt64.toNat_inj.mp (eq_of_bytes 8 ?_ fun i hi ↦ ?_))
  · rw [hrest, hrest]
  · interval_cases i <;> assumption

theorem toBeBytes32_inj {x y : Int32} : toBeBytes32 x = toBeBytes32 y ↔ x = y := by
  refine ⟨fun h ↦ ?_, fun h ↦ h ▸ rfl⟩
  simp only [toBeBytes32, List.map_cons, List.map_nil, List.cons.injEq, and_true,
    ← UInt8.toNat_inj, UInt32.toNat_toUInt8, UInt32.toNat_shiftRight, UInt32.reduceToNat,
    Nat.reduceMod, Nat.reducePow] at h
  obtain ⟨h₃, h₂, h₁, h₀⟩ := h
  have hrest : ∀ z : Int32, z.toUInt32.toNat >>> (8 * 4) = 0 := fun z ↦
    Nat.shiftRight_eq_zero _ _ z.toUInt32.toNat_lt
  refine congrArg UInt32.toInt32 (UInt32.toNat_inj.mp (eq_of_bytes 4 ?_ fun i hi ↦ ?_))
  · rw [hrest, hrest]
  · interval_cases i <;> assumption

theorem stackNodeBytes_inj {m n : StackNode} :
    stackNodeBytes m = stackNodeBytes n ↔ m.parentId = n.parentId ∧
      m.stackNodeDataId = n.stackNodeDataId ∧ m.executableId = n.executableId := by
  constructor
  · intro h
    unfold stackNodeBytes at h
    obtain ⟨h, hexe⟩ := List.append_inj' h (by simp)
    obtain ⟨hparent, hdata⟩ := List.append_inj' h (by simp)
    refine ⟨?_, toBeBytes64_inj.mp hdata, toBeBytes64_inj.mp hexe⟩
    cases hm : m.parentId with
    | none =>
      cases hn : n.parentId with
      | none => rfl
      | some q =>
        rw [hm, hn] at hparent
        cases hparent
    | some p =>
      cases hn : n.parentId with
      | none =>
        rw [hm, hn] at hparent
        cases hparent
      | some q =>
        rw [hm, hn] at hparent
        exact congrArg some (toBeBytes64_inj.mp hparent)
  · intro h
    unfold stackNodeBytes
    rw [h.1, h.2.1, h.2.2]

def lineBytes : Option Int32 → List UInt8
  | some lineNumber => toBeBytes32 lineNumber
  | none => []

theorem dataBytes_eq (d : StackNodeData) :
    dataBytes d = utf8 (d.symbol ++ d.file.getD "") ++ lineBytes d.lineNumber := by
  rw [dataBytes, utf8_append]
  cases d.file with
  | none =>
    rw [Option.getD_none, utf8_empty]
    rfl
  | some file => rfl

def CollisionFree (env : Externals) (strings : List (List UInt8)) : Prop :=
  ∀ x ∈ strings, ∀ y ∈ strings, finalizeId env x = finalizeId env y → x = y

instance (env : Externals) (strings : List (List UInt8)) : Decidable (CollisionFree env strings) :=
  inferInstanceAs (Decidable (∀ x ∈ strings, ∀ y ∈ strings,
    finalizeId env x = finalizeId env y → x = y))

end Sto
