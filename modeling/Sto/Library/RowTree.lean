import Sto.Library.ParentForest

namespace Sto.Library

inductive RowTree (ρ : Type)
  | node (row : ρ) (kids : List (RowTree ρ))

namespace RowTree

variable {κ ρ : Type}

@[elab_as_elim, induction_eliminator]
theorem induct {motive : RowTree ρ → Prop}
    (node : ∀ r ts, (∀ t ∈ ts, motive t) → motive (.node r ts)) (t : RowTree ρ) : motive t :=
  t.rec (motive_2 := fun ts ↦ ∀ t ∈ ts, motive t) node (fun _ h ↦ by cases h)
    fun _ _ ht hts ↦ List.forall_mem_cons.mpr ⟨ht, hts⟩

def row : RowTree ρ → ρ
  | node r _ => r

mutual

def rows : RowTree ρ → List ρ
  | node r ts => r :: rowsAll ts

def rowsAll : List (RowTree ρ) → List ρ
  | [] => []
  | t :: ts => rows t ++ rowsAll ts

end

@[simp] theorem row_node (r : ρ) (ts : List (RowTree ρ)) : (node r ts).row = r := rfl

theorem rowsAll_eq (ts : List (RowTree ρ)) : rowsAll ts = ts.flatMap rows := by
  induction ts with
  | nil => rfl
  | cons t ts ih => rw [rowsAll, ih, List.flatMap_cons]

@[simp] theorem rows_node (r : ρ) (ts : List (RowTree ρ)) :
    (node r ts).rows = r :: ts.flatMap rows := by
  rw [rows, rowsAll_eq]

mutual

/-- The tree without the rows that have no row below them. -/
def inner : RowTree ρ → List (RowTree ρ)
  | node r ts => if ts.isEmpty then [] else [node r (innerAll ts)]

def innerAll : List (RowTree ρ) → List (RowTree ρ)
  | [] => []
  | t :: ts => inner t ++ innerAll ts

end

theorem innerAll_eq (ts : List (RowTree ρ)) : innerAll ts = ts.flatMap inner := by
  induction ts with
  | nil => rfl
  | cons t ts ih => rw [innerAll, ih, List.flatMap_cons]

@[simp] theorem inner_node_nil (r : ρ) : (node r []).inner = [] := rfl

theorem inner_node {r : ρ} {ts : List (RowTree ρ)} (h : ts ≠ []) :
    (node r ts).inner = [node r (ts.flatMap inner)] := by
  rw [inner, if_neg (by simpa using h), innerAll_eq]

theorem length_inner_lt (t : RowTree ρ) : (t.inner.flatMap rows).length < t.rows.length := by
  induction t with
  | node r ts ih =>
    by_cases hts : ts = []
    · subst hts
      simp
    · have hle : ∀ us ⊆ ts, ((us.flatMap inner).flatMap rows).length + us.length ≤
          (us.flatMap rows).length := by
        intro us hus
        induction us with
        | nil => rfl
        | cons u us ihus =>
          have hu := ih u (hus (by simp))
          have := ihus fun x hx ↦ hus (by simp [hx])
          simp only [List.flatMap_cons, List.flatMap_append, List.length_append, List.length_cons]
          omega
      have hall := hle ts (List.Subset.refl ts)
      have hpos := List.length_pos_iff.mpr hts
      rw [inner_node hts, List.flatMap_singleton, rows_node, rows_node, List.length_cons,
        List.length_cons]
      omega

theorem row_mem (t : RowTree ρ) : t.row ∈ t.rows := by
  cases t
  simp

variable (key : ρ → κ) (parent : ρ → Option κ)

/-- Every row is placed below the row that it names as its parent. -/
inductive Linked : RowTree ρ → Prop
  | node {r : ρ} {ts : List (RowTree ρ)} : (∀ t ∈ ts, parent t.row = some (key r)) →
      (∀ t ∈ ts, Linked t) → Linked (.node r ts)

/-- The rows that links from parent to child lead to from a row without parent. -/
inductive Reachable (rs : List ρ) : ρ → Prop
  | root {r} : r ∈ rs → parent r = none → Reachable rs r
  | child {p r} : Reachable rs p → r ∈ rs → parent r = some (key p) → Reachable rs r

/-- The tree has below each row all rows that name it as their parent, each once and in some
order. -/
inductive Grown [DecidableEq κ] (rs : List ρ) : RowTree ρ → Prop
  | node {r : ρ} {ts : List (RowTree ρ)} : r ∈ rs →
      (ts.map row).Perm (rs.filter fun x ↦ parent x = some (key r)) →
      (∀ t ∈ ts, Grown rs t) → Grown rs (.node r ts)

/-- The trees have every reachable row once, the rows without parent on top and every other
row right below its parent. -/
structure Exact (rs : List ρ) (ts : List (RowTree ρ)) : Prop where
  roots : ∀ t ∈ ts, parent t.row = none
  linked : ∀ t ∈ ts, t.Linked key parent
  nodup : (ts.flatMap rows).Nodup
  mem_iff : ∀ r, r ∈ ts.flatMap rows ↔ Reachable key parent rs r

variable {key parent} [DecidableEq κ] {rs : List ρ}

theorem Grown.linked {t : RowTree ρ} (h : t.Grown key parent rs) : t.Linked key parent := by
  induction t with
  | node r ts ih =>
    cases h with
    | node hr hkids hts =>
      refine .node (fun t ht ↦ ?_) fun t ht ↦ ih t ht (hts t ht)
      have hmem := hkids.mem_iff.mp (List.mem_map_of_mem ht)
      exact of_decide_eq_true (List.mem_filter.mp hmem).2

theorem Grown.mem {t : RowTree ρ} (h : t.Grown key parent rs) {x : ρ} (hx : x ∈ t.rows) :
    x ∈ rs := by
  induction t with
  | node r ts ih =>
    cases h with
    | node hr hkids hts =>
      rw [rows_node, List.mem_cons, List.mem_flatMap] at hx
      obtain rfl | ⟨t, ht, hx⟩ := hx
      · exact hr
      · exact ih t ht (hts t ht) hx

theorem Grown.reachable {t : RowTree ρ} (h : t.Grown key parent rs)
    (hroot : Reachable key parent rs t.row) {x : ρ} (hx : x ∈ t.rows) :
    Reachable key parent rs x := by
  induction t with
  | node r ts ih =>
    have hlinked := h.linked
    cases h with
    | node hr hkids hts =>
      cases hlinked with
      | node hparent _ =>
        rw [rows_node, List.mem_cons, List.mem_flatMap] at hx
        obtain rfl | ⟨t, ht, hx⟩ := hx
        · exact hroot
        · exact ih t ht (hts t ht) (.child hroot ((hts t ht).mem t.row_mem) (hparent t ht)) hx

theorem Grown.mem_below {t : RowTree ρ} (h : t.Grown key parent rs) {x y : ρ} (hx : x ∈ t.rows)
    (hy : y ∈ rs) (hparent : parent y = some (key x)) : y ∈ t.rows := by
  induction t with
  | node r ts ih =>
    cases h with
    | node hr hkids hts =>
      rw [rows_node, List.mem_cons, List.mem_flatMap] at hx ⊢
      refine .inr ?_
      obtain rfl | ⟨t, ht, hx⟩ := hx
      · have hmem := hkids.mem_iff.mpr (List.mem_filter.mpr ⟨hy, decide_eq_true hparent⟩)
        obtain ⟨t, ht, rfl⟩ := List.mem_map.mp hmem
        exact ⟨t, ht, t.row_mem⟩
      · exact ⟨t, ht, ih t ht (hts t ht) hx⟩

theorem Grown.subset {t u : RowTree ρ} (ht : t.Grown key parent rs) (hu : u.Grown key parent rs)
    (hroot : t.row ∈ u.rows) : t.rows ⊆ u.rows := by
  induction t with
  | node r ts ih =>
    have hlinked := ht.linked
    cases ht with
    | node hr hkids hts =>
      cases hlinked with
      | node hparent _ =>
        intro x hx
        rw [rows_node, List.mem_cons, List.mem_flatMap] at hx
        obtain rfl | ⟨t, ht, hx⟩ := hx
        · exact hroot
        · have hbelow := hu.mem_below hroot ((hts t ht).mem t.row_mem) (hparent t ht)
          exact ih t ht (hts t ht) hbelow hx

section Table

variable {T : Table key}

theorem Grown.depth {t : RowTree ρ} (h : t.Grown key parent T.rows) {d : ℕ}
    (hd : T.Depth parent (key t.row) d) {x : ρ} (hx : x ∈ t.rows) :
    ∃ m, T.climb parent m (key x) = some (key t.row) ∧ T.Depth parent (key x) (d + m) := by
  induction t generalizing d with
  | node r ts ih =>
    have hlinked := h.linked
    cases h with
    | node hr hkids hts =>
      cases hlinked with
      | node hparent _ =>
        rw [rows_node, List.mem_cons, List.mem_flatMap] at hx
        obtain rfl | ⟨t, ht, hx⟩ := hx
        · exact ⟨0, rfl, hd⟩
        · have hlink : T.link parent (key t.row) = some (some (key r)) :=
            Table.link_eq_some.mpr ⟨_, (hts t ht).mem t.row_mem, rfl, hparent t ht⟩
          obtain ⟨m, hm, hdepth⟩ := ih t ht (hts t ht) (.child hlink hd) hx
          refine ⟨m + 1, ?_, by rwa [Nat.add_assoc, Nat.add_comm 1 m] at hdepth⟩
          rw [Table.climb_add, hm]
          exact (Table.climb_succ hlink 0).trans rfl

theorem nodup_flatMap_rows {ts : List (RowTree ρ)} {d : ℕ}
    (hgrown : ∀ t ∈ ts, t.Grown key parent T.rows)
    (hdepth : ∀ t ∈ ts, T.Depth parent (key t.row) d) (hroots : (ts.map row).Nodup)
    (hrows : ∀ t ∈ ts, t.rows.Nodup) : (ts.flatMap rows).Nodup := by
  refine List.nodup_flatMap.mpr ⟨hrows, ?_⟩
  refine (List.pairwise_map.mp hroots).imp_of_mem fun {t u} ht hu hne x hxt hxu ↦ hne ?_
  obtain ⟨m, hm, hdt⟩ := (hgrown t ht).depth (hdepth t ht) hxt
  obtain ⟨m', hm', hdu⟩ := (hgrown u hu).depth (hdepth u hu) hxu
  have hsame := hdt.unique hdu
  obtain rfl : m = m' := by omega
  have hkey : key t.row = key u.row := Option.some_inj.mp (hm.symm.trans hm')
  exact List.inj_on_of_nodup_map T.nodup ((hgrown t ht).mem t.row_mem)
    ((hgrown u hu).mem u.row_mem) hkey

theorem Grown.nodup {t : RowTree ρ} (h : t.Grown key parent T.rows) {d : ℕ}
    (hd : T.Depth parent (key t.row) d) : t.rows.Nodup := by
  induction t generalizing d with
  | node r ts ih =>
    have hlinked := h.linked
    cases h with
    | node hr hkids hts =>
      cases hlinked with
      | node hparent _ =>
        have hdepth : ∀ t ∈ ts, T.Depth parent (key t.row) (d + 1) := fun t ht ↦
          .child (Table.link_eq_some.mpr ⟨_, (hts t ht).mem t.row_mem, rfl, hparent t ht⟩) hd
        rw [rows_node, List.nodup_cons]
        refine ⟨fun hmem ↦ ?_, ?_⟩
        · obtain ⟨t, ht, hx⟩ := List.mem_flatMap.mp hmem
          obtain ⟨m, _, hdeep⟩ := (hts t ht).depth (hdepth t ht) hx
          have := hdeep.unique hd
          omega
        · refine nodup_flatMap_rows hts hdepth ?_ fun t ht ↦ ih t ht (hts t ht) (hdepth t ht)
          exact hkids.nodup_iff.mpr (T.nodup_rows.filter _)

theorem Grown.rows_perm {t u : RowTree ρ} (ht : t.Grown key parent T.rows)
    (hu : u.Grown key parent T.rows) {d : ℕ} (hd : T.Depth parent (key t.row) d)
    (hroot : t.row = u.row) : t.rows.Perm u.rows := by
  refine (List.perm_ext_iff_of_nodup (ht.nodup hd) (hu.nodup (hroot ▸ hd))).mpr fun x ↦ ⟨?_, ?_⟩
  · exact fun hx ↦ ht.subset hu (hroot ▸ u.row_mem) hx
  · exact fun hx ↦ hu.subset ht (hroot ▸ t.row_mem) hx

/-- Grown below all rows without parent, the trees are exact. -/
theorem exact_of_grown {ts : List (RowTree ρ)}
    (hroots : (ts.map row).Perm (T.rows.filter fun x ↦ (parent x).isNone))
    (hgrown : ∀ t ∈ ts, t.Grown key parent T.rows) : Exact key parent T.rows ts := by
  have hnone : ∀ t ∈ ts, parent t.row = none := fun t ht ↦ Option.isNone_iff_eq_none.mp
    (List.mem_filter.mp (hroots.mem_iff.mp (List.mem_map_of_mem ht))).2
  have hdepth : ∀ t ∈ ts, T.Depth parent (key t.row) 0 := fun t ht ↦
    .root (Table.link_eq_some.mpr ⟨_, (hgrown t ht).mem t.row_mem, rfl, hnone t ht⟩)
  refine ⟨hnone, fun t ht ↦ (hgrown t ht).linked, ?_, fun r ↦ ⟨fun hr ↦ ?_, fun hr ↦ ?_⟩⟩
  · exact nodup_flatMap_rows hgrown hdepth (hroots.nodup_iff.mpr (T.nodup_rows.filter _))
      fun t ht ↦ (hgrown t ht).nodup (hdepth t ht)
  · obtain ⟨t, ht, hr⟩ := List.mem_flatMap.mp hr
    exact (hgrown t ht).reachable (.root ((hgrown t ht).mem t.row_mem) (hnone t ht)) hr
  · induction hr with
    | @root r hr hparent =>
      have hmem := hroots.mem_iff.mpr (List.mem_filter.mpr
        ⟨hr, Option.isNone_iff_eq_none.mpr hparent⟩)
      obtain ⟨t, ht, rfl⟩ := List.mem_map.mp hmem
      exact List.mem_flatMap.mpr ⟨t, ht, t.row_mem⟩
    | @child p r _ hr hparent ih =>
      obtain ⟨t, ht, hp⟩ := List.mem_flatMap.mp ih
      exact List.mem_flatMap.mpr ⟨t, ht, (hgrown t ht).mem_below hp hr hparent⟩

end Table

end RowTree

end Sto.Library
