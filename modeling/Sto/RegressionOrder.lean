import Sto.Presence
import Mathlib.Tactic.FieldSimp

namespace Sto

open Library

variable {env : Externals} {db : Db} {start : Timestamp}

def Regression.older (x : Regression) : String × Option String := (x.basename, x.aBuildId)

def Regression.newer (x : Regression) : String × Option String := (x.basename, x.bBuildId)

def Regression.frame (x : Regression) : String × Option String := (x.symbol, x.file)

/-- No two stored frames are at different lines of one function, which the report cannot tell
apart. -/
def Db.OneLineEach (db : Db) : Prop :=
  ∀ f ∈ db.stackNodeData.rows, ∀ g ∈ db.stackNodeData.rows,
    f.symbol = g.symbol → f.file = g.file → f = g

theorem Db.Presents.unique {p q : SymPct} (hp : db.Presents p) (hq : db.Presents q)
    (hexe : p.exe.id = q.exe.id) (hsnd : p.snd.id = q.snd.id) : p = q := by
  have hexe' : p.exe = q.exe := List.inj_on_of_nodup_map db.executable.nodup hp.exe hq.exe hexe
  have hsnd' : p.snd = q.snd := List.inj_on_of_nodup_map db.stackNodeData.nodup hp.snd hq.snd hsnd
  have hpresence : p.normalizedPresence = q.normalizedPresence := by
    rw [hp.presence, hq.presence, hexe', hsnd']
  cases p
  cases q
  rw [SymPct.mk.injEq]
  exact ⟨hexe', hsnd', hpresence⟩

section Times

theorem later_iff {x y : Option Timestamp} :
    later x y = true ↔ ∃ s t, x = some s ∧ y = some t ∧ t < s := by
  cases x <;> cases y <;> simp [later]

theorem later_trans {x y z : Option Timestamp} (h : later x y = true) (h' : later y z = true) :
    later x z = true := by
  obtain ⟨s, t, rfl, rfl, hlt⟩ := later_iff.mp h
  obtain ⟨t', r, hy, rfl, hlt'⟩ := later_iff.mp h'
  obtain rfl := Option.some_inj.mp hy
  exact later_iff.mpr ⟨s, r, rfl, rfl, hlt'.trans hlt⟩

theorem later_irrefl (x : Option Timestamp) : ¬ later x x = true := by
  intro h
  obtain ⟨s, t, rfl, ht, hlt⟩ := later_iff.mp h
  exact hlt.ne (Option.some_inj.mp ht).symm

theorem later_of_le {start' : Timestamp} (hle : start ≤ start') {x : Option Timestamp}
    (h : later x (some start') = true) : later x (some start) = true := by
  obtain ⟨s, t, rfl, ht, hlt⟩ := later_iff.mp h
  obtain rfl := Option.some_inj.mp ht
  exact later_iff.mpr ⟨s, start, rfl, rfl, hle.trans_lt hlt⟩

end Times

section Lines

variable {a b c : SymPct}

theorem isRegression_trans (h : isRegression start a b = true)
    (h' : isRegression start b c = true) (hne : a.exe.id ≠ c.exe.id) :
    isRegression start a c = true := by
  rw [isRegression_iff] at h h' ⊢
  obtain ⟨hname, _, hframe, hless, hlater, _, hstart⟩ := h
  obtain ⟨hname', _, hframe', hless', hlater', hstart', _⟩ := h'
  exact ⟨hname.trans hname', hne, hframe.trans hframe', hless.trans hless',
    later_trans hlater' hlater, hstart', hstart⟩

theorem isRegression_of_le {start' : Timestamp} (hle : start ≤ start')
    (h : isRegression start' a b = true) : isRegression start a b = true := by
  rw [isRegression_iff] at h ⊢
  obtain ⟨hname, hne, hframe, hless, hlater, hb, ha⟩ := h
  exact ⟨hname, hne, hframe, hless, hlater, later_of_le hle hb, later_of_le hle ha⟩

theorem pctDiff_trans (ha : 0 < a.normalizedPresence) (hb : 0 < b.normalizedPresence) :
    1 + pctDiff a c / 100 = (1 + pctDiff a b / 100) * (1 + pctDiff b c / 100) := by
  unfold pctDiff
  field_simp
  ring

theorem pctDiff_pos (ha : 0 < a.normalizedPresence) (h : isRegression start a b = true) :
    0 < pctDiff a b := by
  have hless := (isRegression_iff.mp h).2.2.2.1
  exact mul_pos (div_pos (sub_pos.mpr hless) ha) (by norm_num)

theorem newer_regression (h : isRegression start a b = true) (pct : ℚ) :
    (regression a b pct).newer = b.exe.release :=
  Prod.ext (isRegression_iff.mp h).1 rfl

theorem regressionPairs_sublist {start' : Timestamp} (hle : start ≤ start') (sym : List SymPct) :
    (regressionPairs start' sym).Sublist (regressionPairs start sym) := by
  have hfilter : ∀ a, (sym.filter (isRegression start' a)).Sublist
      (sym.filter (isRegression start a)) :=
    fun a ↦ List.monotone_filter_right sym fun b ↦ isRegression_of_le hle
  suffices hall : ∀ as : List SymPct,
      (as.flatMap fun a ↦ (sym.filter (isRegression start' a)).map (Prod.mk a)).Sublist
        (as.flatMap fun a ↦ (sym.filter (isRegression start a)).map (Prod.mk a)) from hall sym
  intro as
  induction as with
  | nil => exact List.Sublist.refl _
  | cons a as ih => exact ((hfilter a).map _).append ih

end Lines

theorem Db.Reports.line {x : Regression} (hx : db.Reports start x) : ∃ a b, db.Presents a ∧
    db.Presents b ∧ isRegression start a b = true ∧ x = regression a b (pctDiff a b) ∧
    x.older = a.exe.release ∧ x.newer = b.exe.release ∧ x.frame = (a.snd.symbol, a.snd.file) := by
  obtain ⟨a, b, ha, hb, hab, rfl⟩ := hx
  exact ⟨a, b, ha, hb, hab, rfl, rfl, newer_regression hab _, rfl⟩

namespace Provenance

variable {s : System Upload Db SqlError} (h : Provenance env s)

include h

theorem release_inj {r r' : Executable} (hr : r ∈ s.store.executable.rows)
    (hr' : r' ∈ s.store.executable.rows) (hrelease : r.release = r'.release) : r = r' := by
  have hid : ∀ x ∈ s.store.executable.rows,
      x.id = miscId env (x.release.1 ++ x.release.2.getD "") := by
    intro x hx
    obtain ⟨u, _, hid, hbinary, hversion, _⟩ := h.executable_row hx
    rw [← hid, executableId_eq, Upload.spelled, hbinary, hversion]
    rfl
  apply List.inj_on_of_nodup_map s.store.executable.nodup hr hr'
  rw [hid r hr, hid r' hr', hrelease]

theorem lines_compose (hlines : s.store.OneLineEach) {x y : Regression}
    (hx : s.store.Reports start x) (hy : s.store.Reports start y) (hrelease : x.newer = y.older)
    (hframe : x.frame = y.frame) : ∃ z, s.store.Reports start z ∧ z.older = x.older ∧
      z.newer = y.newer ∧ z.frame = x.frame ∧
      1 + z.pctDiff / 100 = (1 + x.pctDiff / 100) * (1 + y.pctDiff / 100) := by
  obtain ⟨a, b, ha, hb, hab, rfl, _, hnewer, _⟩ := hx.line
  obtain ⟨b', c, hb', hc, hbc, rfl, holder, hnewer', _⟩ := hy.line
  have hab' := isRegression_iff.mp hab
  have hsnd : a.snd = b'.snd :=
    hlines _ ha.snd _ hb'.snd (congrArg Prod.fst hframe) (congrArg Prod.snd hframe)
  have hexe : b.exe = b'.exe := h.release_inj hb.exe hb'.exe (hnewer.symm.trans hrelease)
  obtain rfl : b = b' := hb.unique hb' (congrArg _ hexe) (hab'.2.2.1.symm.trans (congrArg _ hsnd))
  have hbc' := isRegression_iff.mp hbc
  have hne : a.exe.id ≠ c.exe.id := by
    intro hid
    obtain rfl : a = c := ha.unique hc hid (hab'.2.2.1.trans hbc'.2.2.1)
    exact lt_irrefl _ (hab'.2.2.2.1.trans hbc'.2.2.2.1)
  have hac := isRegression_trans hab hbc hne
  exact ⟨_, ⟨a, c, ha, hc, hac, rfl⟩, rfl, (newer_regression hac _).trans hnewer'.symm, rfl,
    pctDiff_trans (ha.pos h.positive) (hb.pos h.positive)⟩

theorem chain_later {rows : List Regression} (hrows : ∀ x ∈ rows, s.store.Reports start x)
    {r r' : String × Option String}
    (hchain : Relation.TransGen (fun r r' ↦ ∃ x ∈ rows, x.older = r ∧ x.newer = r') r r') :
    ∃ e ∈ s.store.executable.rows, ∃ e' ∈ s.store.executable.rows, e.release = r ∧
      e'.release = r' ∧ later e'.createdAt e.createdAt = true := by
  induction hchain with
  | single hx =>
    obtain ⟨x, hx, rfl, rfl⟩ := hx
    obtain ⟨a, b, ha, hb, hab, _, holder, hnewer, _⟩ := (hrows x hx).line
    exact ⟨a.exe, ha.exe, b.exe, hb.exe, holder.symm, hnewer.symm,
      (isRegression_iff.mp hab).2.2.2.2.1⟩
  | tail _ hx ih =>
    obtain ⟨e, he, e', he', hrelease, hrelease', hlater⟩ := ih
    obtain ⟨x, hx, rfl, rfl⟩ := hx
    obtain ⟨a, b, ha, hb, hab, _, holder, hnewer, _⟩ := (hrows x hx).line
    obtain rfl := h.release_inj he' ha.exe (hrelease'.trans holder)
    exact ⟨e, he, b.exe, hb.exe, hrelease, hnewer.symm,
      later_trans (isRegression_iff.mp hab).2.2.2.2.1 hlater⟩

end Provenance

/-- The lines of a report never contradict each other: none goes down, none leads back to a
release that it comes from, and of what has gone up twice there is a line for the outer two,
with the two rises multiplied (the quotients taken as exact). A later start only leaves lines
out. -/
theorem regressions_are_ordered (pg : Postgres) (env : Externals) (us : List Upload)
    (sched : List ℕ) (order : Arrangement) (start : Timestamp) :
    let db := (reached pg env us sched).store
    ∃ rows, findRegressions order start db = .ok rows ∧
      (∀ x ∈ rows, 0 < x.pctDiff) ∧
      (∀ release, ¬ Relation.TransGen (fun r r' ↦ ∃ x ∈ rows, x.older = r ∧ x.newer = r')
        release release) ∧
      (db.OneLineEach → ∀ x ∈ rows, ∀ y ∈ rows, x.newer = y.older → x.frame = y.frame →
        ∃ z ∈ rows, z.older = x.older ∧ z.newer = y.newer ∧ z.frame = x.frame ∧
          1 + z.pctDiff / 100 = (1 + x.pctDiff / 100) * (1 + y.pctDiff / 100)) ∧
      ∀ start' ≥ start, ∀ order', ∃ rows', findRegressions order' start' db = .ok rows' ∧
        rows'.Subperm rows := by
  intro db
  have hprov : Provenance env (reached pg env us sched) := provenance_run pg env us sched
  obtain ⟨rows, hrows, hmem⟩ := findRegressions_ok hprov.positive order start
  refine ⟨rows, hrows, fun x hx ↦ ?_, fun release hloop ↦ ?_, fun hlines x hx y hy hxy hframe ↦ ?_,
    fun start' hle order' ↦ ?_⟩
  · obtain ⟨a, b, ha, _, hab, rfl⟩ := (hmem x).mp hx
    exact pctDiff_pos (ha.pos hprov.positive) hab
  · obtain ⟨e, he, e', he', hrelease, hrelease', hlater⟩ :=
      hprov.chain_later (fun x hx ↦ (hmem x).mp hx) hloop
    obtain rfl := hprov.release_inj he he' (hrelease.trans hrelease'.symm)
    exact later_irrefl _ hlater
  · obtain ⟨z, hz, hcompose⟩ :=
      hprov.lines_compose hlines ((hmem x).mp hx) ((hmem y).mp hy) hxy hframe
    exact ⟨z, (hmem z).mpr hz, hcompose⟩
  · obtain ⟨sym, _, _, hreport⟩ := findRegressions_rows hprov.positive
    obtain rfl := Except.ok.inj (hrows.symm.trans (hreport order start))
    refine ⟨_, hreport order' start', ?_⟩
    apply ((List.mergeSort_perm _ _).trans (order'.perm _)).subperm.trans
    apply ((regressionPairs_sublist hle sym).map _).subperm.trans
    exact ((List.mergeSort_perm _ _).trans (order.perm _)).symm.subperm

theorem symPct_nodup {sym : List SymPct} (h : symPctPerVersionPerBinary db = .ok sym) :
    sym.Nodup := by
  have hkeys : sym.map (fun p ↦ (p.exe, p.snd)) =
      (groupBy (fun j ↦ (j.exe, j.snd)) (symJoin db)).map Prod.fst := by
    have hall := mapM_ok.mp h
    clear h
    generalize groupBy (fun j : SymJoin ↦ (j.exe, j.snd)) (symJoin db) = groups at hall
    induction hall with
    | nil => rfl
    | cons hg _ ih =>
      obtain ⟨_, _, rfl⟩ := except_map_ok.mp hg
      rw [List.map_cons, List.map_cons, ih]
  apply List.Nodup.of_map fun p : SymPct ↦ (p.exe, p.snd)
  rw [hkeys, groupBy, List.map_map]
  exact (List.map_id _).symm ▸ List.nodup_dedup _

theorem regressionPairs_nodup {sym : List SymPct} (h : sym.Nodup) :
    (regressionPairs start sym).Nodup := by
  refine List.nodup_flatMap.mpr ⟨fun a _ ↦ ?_, h.imp fun hne ↦ ?_⟩
  · exact (h.filter _).map (Prod.mk_right_injective a)
  · intro x hx hx'
    obtain ⟨_, _, rfl⟩ := List.mem_map.mp hx
    obtain ⟨_, _, heq⟩ := List.mem_map.mp hx'
    exact hne (Prod.mk.inj heq).1.symm

theorem sorted_rows (rows : List Regression) :
    (rows.mergeSort fun x y ↦ decide (y.pctDiff ≤ x.pctDiff)).Pairwise fun x y ↦
      decide (y.pctDiff ≤ x.pctDiff) = true := by
  apply List.pairwise_mergeSort
  · intro x y z hxy hyz
    exact decide_eq_true ((of_decide_eq_true hyz).trans (of_decide_eq_true hxy))
  · intro x y
    rw [Bool.or_eq_true, decide_eq_true_eq, decide_eq_true_eq]
    exact le_total y.pctDiff x.pctDiff

/-- The report has one row for each pair of releases and frame that went up, the steepest rise
first. -/
theorem report_is_sorted (pg : Postgres) (env : Externals) (us : List Upload) (sched : List ℕ)
    (order : Arrangement) (start : Timestamp) :
    let db := (reached pg env us sched).store
    ∃ rows, ∃ pairs : List (SymPct × SymPct), findRegressions order start db = .ok rows ∧
      rows.Pairwise (fun x y ↦ y.pctDiff ≤ x.pctDiff) ∧
      rows.Perm (pairs.map fun p ↦ regression p.1 p.2 (pctDiff p.1 p.2)) ∧
      pairs.Nodup ∧
      ∀ a b, (a, b) ∈ pairs ↔ db.Presents a ∧ db.Presents b ∧ isRegression start a b = true := by
  intro db
  have hpositive : db.Positive := (provenance_run pg env us sched).positive
  obtain ⟨sym, hsym, hmem, hreport⟩ := findRegressions_rows hpositive
  refine ⟨_, regressionPairs start sym, hreport order start, ?_, ?_,
    regressionPairs_nodup (symPct_nodup hsym), fun a b ↦ ?_⟩
  · exact (sorted_rows _).imp fun h ↦ of_decide_eq_true h
  · exact (List.mergeSort_perm _ _).trans (order.perm _)
  · rw [mem_regressionPairs, hmem, hmem]

end Sto
