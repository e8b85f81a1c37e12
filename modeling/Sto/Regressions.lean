import Sto.Rendering
import Sto.Library.Query
import Mathlib.Algebra.Order.BigOperators.Group.List
import Mathlib.Algebra.Order.Field.Rat
import Mathlib.Algebra.Order.Group.Int

namespace Sto

open Library

/-- A row of `symPctPerVersionPerBinary`. -/
structure SymPct where
  exe : Executable
  snd : StackNodeData
  normalizedPresence : ℚ

structure Regression where
  basename : String
  aBuildId : Option String
  bBuildId : Option String
  file : Option String
  symbol : String
  pctDiff : ℚ
  deriving DecidableEq

structure SymJoin where
  exe : Executable
  sn : StackNode
  snd : StackNodeData

/-- `executable exe inner join stack_node sn on sn.executable_id = exe.id inner join
stack_node_data snd on sn.stack_node_data_id = snd.id` -/
def symJoin (db : Db) : List SymJoin :=
  db.executable.rows.flatMap fun exe ↦
    (db.stackNode.rows.filter fun sn ↦ sn.executableId = exe.id).flatMap fun sn ↦
      (db.stackNodeData.rows.filter fun snd ↦ snd.id = sn.stackNodeDataId).map fun snd ↦
        ⟨exe, sn, snd⟩

def divide (x y : ℚ) : Except QueryError ℚ :=
  if y = 0 then .error .divisionByZero else .ok (x / y)

def sumSampleCount (group : List SymJoin) : ℤ := (group.map fun j ↦ j.sn.sampleCount).sum

/-- Grouped by `exe.id, snd.id`, the keys of two tables, which determine the rows. -/
def symPctPerVersionPerBinary (db : Db) : Except QueryError (List SymPct) :=
  (groupBy (fun j ↦ (j.exe, j.snd)) (symJoin db)).mapM fun g ↦
    (divide (sumSampleCount g.2) g.1.1.sampleCount).map fun normalizedPresence ↦
      ⟨g.1.1, g.1.2, normalizedPresence⟩

/-- `x > y`, which a null makes unknown. -/
def later : Option Timestamp → Option Timestamp → Bool
  | some x, some y => decide (y < x)
  | _, _ => false

def isRegression (startTime : Timestamp) (a b : SymPct) : Bool :=
  decide (a.exe.basename = b.exe.basename) && decide (a.exe.id ≠ b.exe.id) &&
    decide (a.snd.id = b.snd.id) && decide (b.normalizedPresence - a.normalizedPresence > 0) &&
    later b.exe.createdAt a.exe.createdAt && later b.exe.createdAt (some startTime) &&
    later a.exe.createdAt (some startTime)

/-- The `cross join` after the `where`. -/
def regressionPairs (startTime : Timestamp) (sym : List SymPct) : List (SymPct × SymPct) :=
  sym.flatMap fun a ↦ (sym.filter (isRegression startTime a)).map (Prod.mk a)

def regression (a b : SymPct) (pctDiff : ℚ) : Regression :=
  ⟨a.exe.basename, a.exe.buildId, b.exe.buildId, a.snd.file, a.snd.symbol, pctDiff⟩

/-- `order` is that of the rows with the same `pct_diff`. -/
def findRegressions (order : Arrangement) (startTime : Timestamp) (db : Db) :
    Except QueryError (List Regression) :=
  (symPctPerVersionPerBinary db).bind fun sym ↦
    ((regressionPairs startTime sym).mapM fun p ↦
      (divide (p.2.normalizedPresence - p.1.normalizedPresence) p.1.normalizedPresence).map
        fun ratio ↦ regression p.1 p.2 (ratio * 100)).map fun rows ↦
          (order.arrange rows).mergeSort fun x y ↦ decide (y.pctDiff ≤ x.pctDiff)

theorem mem_symJoin {db : Db} {j : SymJoin} : j ∈ symJoin db ↔
    j.exe ∈ db.executable.rows ∧ j.sn ∈ db.stackNode.rows ∧ j.snd ∈ db.stackNodeData.rows ∧
      j.sn.executableId = j.exe.id ∧ j.snd.id = j.sn.stackNodeDataId := by
  simp only [symJoin, List.mem_flatMap, List.mem_map, List.mem_filter, decide_eq_true_eq]
  constructor
  · intro hx
    obtain ⟨exe, hexe, sn, ⟨hsn, hid⟩, snd, ⟨hsnd, hdata⟩, rfl⟩ := hx
    exact ⟨hexe, hsn, hsnd, hid, hdata⟩
  · intro hx
    obtain ⟨hexe, hsn, hsnd, hid, hdata⟩ := hx
    exact ⟨j.exe, hexe, j.sn, ⟨hsn, hid⟩, j.snd, ⟨hsnd, hdata⟩, rfl⟩

def Db.ofFrame (e d : Int64) (n : StackNode) : Bool :=
  decide (n.stackNodeDataId = d) && decide (n.executableId = e)

theorem Db.ofFrame_iff {e d : Int64} {n : StackNode} :
    Db.ofFrame e d n = true ↔ n.stackNodeDataId = d ∧ n.executableId = e := by
  rw [Db.ofFrame, Bool.and_eq_true, decide_eq_true_eq, decide_eq_true_eq]

/-- How often the frame `d` is counted for the executable `e`, at all its places in the tree. -/
def Db.hits (db : Db) (e d : Int64) : ℤ :=
  ((db.stackNode.rows.filter (Db.ofFrame e d)).map StackNode.sampleCount).sum

theorem sumSampleCount_eq {db : Db} {exe : Executable} {snd : StackNodeData}
    (hexe : exe ∈ db.executable.rows) (hsnd : snd ∈ db.stackNodeData.rows) :
    sumSampleCount ((symJoin db).filter fun j ↦ (j.exe, j.snd) = (exe, snd)) =
      db.hits exe.id snd.id := by
  have hgroup : ((symJoin db).filter fun j ↦ (j.exe, j.snd) = (exe, snd)) =
      (db.stackNode.rows.filter (Db.ofFrame exe.id snd.id)).map fun sn ↦ ⟨exe, sn, snd⟩ := by
    have hone : ∀ sn : StackNode,
        (((db.stackNodeData.rows.filter fun d ↦ d.id = sn.stackNodeDataId).map fun d ↦
          (⟨exe, sn, d⟩ : SymJoin)).filter fun j ↦ (j.exe, j.snd) = (exe, snd)) =
            if sn.stackNodeDataId = snd.id then [⟨exe, sn, snd⟩] else [] := by
      intro sn
      by_cases hid : sn.stackNodeDataId = snd.id
      · rw [if_pos hid, hid, Table.filter_of_nodup db.stackNodeData.nodup hsnd]
        simp
      · rw [if_neg hid, List.filter_eq_nil_iff]
        intro j hj hsame
        obtain ⟨d, hd, rfl⟩ := List.mem_map.mp hj
        have hdid := of_decide_eq_true (List.mem_filter.mp hd).2
        have hdsnd : d = snd := (Prod.mk.inj (of_decide_eq_true hsame)).2
        exact hid (hdid.symm.trans (congrArg _ hdsnd))
    rw [symJoin, List.filter_flatMap, flatMap_of_unique db.executable.nodup_rows hexe]
    · rw [List.filter_flatMap]
      simp only [hone]
      rw [flatMap_ite, List.filter_filter]
      rfl
    · intro exe' _ hne
      rw [List.filter_eq_nil_iff]
      intro j hj hsame
      obtain ⟨sn, _, hj⟩ := List.mem_flatMap.mp hj
      obtain ⟨d, _, rfl⟩ := List.mem_map.mp hj
      exact hne (Prod.mk.inj (of_decide_eq_true hsame)).1
  rw [hgroup, sumSampleCount, List.map_map]
  rfl

/-- A row of the common table expression. -/
structure Db.Presents (db : Db) (p : SymPct) : Prop where
  exe : p.exe ∈ db.executable.rows
  snd : p.snd ∈ db.stackNodeData.rows
  node : ∃ n ∈ db.stackNode.rows, Db.ofFrame p.exe.id p.snd.id n = true
  presence : p.normalizedPresence = db.hits p.exe.id p.snd.id / p.exe.sampleCount

instance (db : Db) (p : SymPct) : Decidable (db.Presents p) :=
  decidable_of_iff (p.exe ∈ db.executable.rows ∧ p.snd ∈ db.stackNodeData.rows ∧
    (∃ n ∈ db.stackNode.rows, Db.ofFrame p.exe.id p.snd.id n = true) ∧
      p.normalizedPresence = db.hits p.exe.id p.snd.id / p.exe.sampleCount)
    ⟨fun h ↦ ⟨h.1, h.2.1, h.2.2.1, h.2.2.2⟩, fun h ↦ ⟨h.exe, h.snd, h.node, h.presence⟩⟩

theorem symPct_ok {db : Db} (h : ∀ r ∈ db.executable.rows, r.sampleCount ≠ 0) :
    ∃ sym, symPctPerVersionPerBinary db = .ok sym ∧ ∀ p, p ∈ sym ↔ db.Presents p := by
  refine ⟨_, mapM_of_ok (g := fun g ↦ ⟨g.1.1, g.1.2, sumSampleCount g.2 / g.1.1.sampleCount⟩)
    fun g hg ↦ ?_, fun p ↦ ?_⟩
  · obtain ⟨hkey, _⟩ := mem_groupBy.mp hg
    obtain ⟨j, hj, hkey⟩ := List.mem_map.mp hkey
    have hne := h _ (mem_symJoin.mp hj).1
    rw [← hkey, divide, if_neg (by exact_mod_cast hne)]
    rfl
  · rw [List.mem_map]
    constructor
    · intro hx
      obtain ⟨⟨⟨exe, snd⟩, group⟩, hg, rfl⟩ := hx
      obtain ⟨hkey, rfl⟩ := mem_groupBy.mp hg
      obtain ⟨j, hj, hkey⟩ := List.mem_map.mp hkey
      obtain ⟨rfl, rfl⟩ := Prod.mk.inj hkey
      obtain ⟨hexe, hsn, hsnd, hid, hdata⟩ := mem_symJoin.mp hj
      refine ⟨hexe, hsnd, ⟨j.sn, hsn, Db.ofFrame_iff.mpr ⟨hdata.symm, hid⟩⟩, ?_⟩
      dsimp only
      rw [sumSampleCount_eq hexe hsnd]
    · intro hp
      obtain ⟨n, hn, hof⟩ := hp.node
      obtain ⟨hdata, hid⟩ := Db.ofFrame_iff.mp hof
      have hj : (⟨p.exe, n, p.snd⟩ : SymJoin) ∈ symJoin db :=
        mem_symJoin.mpr ⟨hp.exe, hn, hp.snd, hid, hdata.symm⟩
      refine ⟨((p.exe, p.snd), _), mem_groupBy.mpr ⟨List.mem_map.mpr ⟨_, hj, rfl⟩, rfl⟩, ?_⟩
      dsimp only
      rw [sumSampleCount_eq hp.exe hp.snd, ← hp.presence]

theorem isRegression_iff {start : Timestamp} {a b : SymPct} : isRegression start a b = true ↔
    a.exe.basename = b.exe.basename ∧ a.exe.id ≠ b.exe.id ∧ a.snd.id = b.snd.id ∧
      a.normalizedPresence < b.normalizedPresence ∧
      later b.exe.createdAt a.exe.createdAt = true ∧
      later b.exe.createdAt (some start) = true ∧ later a.exe.createdAt (some start) = true := by
  simp only [isRegression, Bool.and_eq_true, decide_eq_true_eq, gt_iff_lt, sub_pos, and_assoc]

theorem mem_regressionPairs {start : Timestamp} {sym : List SymPct} {a b : SymPct} :
    (a, b) ∈ regressionPairs start sym ↔
      a ∈ sym ∧ b ∈ sym ∧ isRegression start a b = true := by
  simp only [regressionPairs, List.mem_flatMap, List.mem_map, List.mem_filter]
  constructor
  · intro hx
    obtain ⟨a', ha, b', hb, heq⟩ := hx
    obtain ⟨rfl, rfl⟩ := Prod.mk.inj heq
    exact ⟨ha, hb⟩
  · intro hx
    exact ⟨a, hx.1, b, hx.2, rfl⟩

def pctDiff (a b : SymPct) : ℚ :=
  (b.normalizedPresence - a.normalizedPresence) / a.normalizedPresence * 100

/-- No row that is stored counts nothing. -/
structure Db.Positive (db : Db) : Prop where
  executables : ∀ r ∈ db.executable.rows, 0 < r.sampleCount
  nodes : ∀ n ∈ db.stackNode.rows, 0 < n.sampleCount

theorem Db.Positive.hits_pos {db : Db} (h : db.Positive) {e d : Int64}
    (hn : ∃ n ∈ db.stackNode.rows, Db.ofFrame e d n = true) : 0 < db.hits e d := by
  obtain ⟨n, hn, hof⟩ := hn
  refine List.sum_pos _ (fun x hx ↦ ?_) (List.ne_nil_of_mem
    (List.mem_map_of_mem (List.mem_filter.mpr ⟨hn, hof⟩)))
  obtain ⟨m, hm, rfl⟩ := List.mem_map.mp hx
  exact h.nodes m (List.mem_filter.mp hm).1

theorem Db.exists_of_hits_pos {db : Db} {e d : Int64} (h : 0 < db.hits e d) :
    ∃ n ∈ db.stackNode.rows, Db.ofFrame e d n = true := by
  by_contra hnone
  have hnil : db.stackNode.rows.filter (Db.ofFrame e d) = [] :=
    List.filter_eq_nil_iff.mpr fun n hn hof ↦ hnone ⟨n, hn, hof⟩
  rw [Db.hits, hnil] at h
  exact absurd h (lt_irrefl 0)

theorem Db.Presents.pos {db : Db} (h : db.Positive) {p : SymPct} (hp : db.Presents p) :
    0 < p.normalizedPresence := by
  have hhits := h.hits_pos hp.node
  have hcount := h.executables _ hp.exe
  rw [hp.presence]
  exact div_pos (by exact_mod_cast hhits) (by exact_mod_cast hcount)

def Db.Reports (db : Db) (start : Timestamp) (x : Regression) : Prop :=
  ∃ a b, db.Presents a ∧ db.Presents b ∧ isRegression start a b = true ∧
    x = regression a b (pctDiff a b)

/-- Where no count is zero no division fails, and there is a line for each pair that is kept. -/
theorem findRegressions_rows {db : Db} (h : db.Positive) :
    ∃ sym, symPctPerVersionPerBinary db = .ok sym ∧ (∀ p, p ∈ sym ↔ db.Presents p) ∧
      ∀ order start, findRegressions order start db =
        .ok ((order.arrange ((regressionPairs start sym).map fun p ↦
          regression p.1 p.2 (pctDiff p.1 p.2))).mergeSort fun x y ↦
            decide (y.pctDiff ≤ x.pctDiff)) := by
  obtain ⟨sym, hsym, hmem⟩ := symPct_ok fun r hr ↦ (h.executables r hr).ne'
  refine ⟨sym, hsym, hmem, fun order start ↦ ?_⟩
  have hrows : ((regressionPairs start sym).mapM fun p ↦
      (divide (p.2.normalizedPresence - p.1.normalizedPresence) p.1.normalizedPresence).map
        fun ratio ↦ regression p.1 p.2 (ratio * 100)) =
      .ok ((regressionPairs start sym).map fun p ↦ regression p.1 p.2 (pctDiff p.1 p.2)) := by
    refine mapM_of_ok fun p hp ↦ ?_
    have hpos := ((hmem p.1).mp (mem_regressionPairs.mp hp).1).pos h
    rw [divide, if_neg hpos.ne']
    rfl
  rw [findRegressions, hsym, Except.bind, hrows]
  rfl

theorem findRegressions_ok {db : Db} (h : db.Positive) (order : Arrangement) (start : Timestamp) :
    ∃ rows, findRegressions order start db = .ok rows ∧
      ∀ x, x ∈ rows ↔ db.Reports start x := by
  obtain ⟨sym, _, hmem, hreport⟩ := findRegressions_rows h
  refine ⟨_, hreport order start, fun x ↦ ?_⟩
  rw [List.mem_mergeSort, order.mem_arrange, List.mem_map]
  constructor
  · intro hx
    obtain ⟨⟨a, b⟩, hab, rfl⟩ := hx
    obtain ⟨ha, hb, hreg⟩ := mem_regressionPairs.mp hab
    exact ⟨a, b, (hmem a).mp ha, (hmem b).mp hb, hreg, rfl⟩
  · intro hx
    obtain ⟨a, b, ha, hb, hreg, rfl⟩ := hx
    exact ⟨(a, b), mem_regressionPairs.mpr ⟨(hmem a).mpr ha, (hmem b).mpr hb, hreg⟩, rfl⟩

end Sto
