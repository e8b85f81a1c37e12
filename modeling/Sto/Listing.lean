import Sto.CallTree
import Sto.Growth

namespace Sto

open Library

variable {env : Externals} {pg : Postgres}

structure TemplateListing where
  name : String
  id : Int64
  date : String
  deriving DecidableEq, Repr

/-- `x.created_at.unwrap()` -/
inductive IndexError
  | createdAtMissing
  deriving DecidableEq, Repr

def dummyListing (format : Timestamp → String) (now : Timestamp) : TemplateListing :=
  ⟨"somename", 123, format now⟩

def templateListing (format : Timestamp → String) (x : Executable) :
    Except IndexError TemplateListing :=
  match x.createdAt with
  | some createdAt => .ok ⟨x.basename, x.id, format createdAt⟩
  | none => .error .createdAtMissing

/-- `GET /`, up to the template: the binaries that it lists. `format` is chrono's
`%Y-%m-%d %H:%M:%S`, and `rows` orders the result of the query. -/
def index (format : Timestamp → String) (now : Timestamp) (rows : Arrangement) (db : Db) :
    Except IndexError (List TemplateListing) :=
  ((rows.arrange db.executable.rows).mapM (templateListing format)).map fun listings ↦
    listings ++ [dummyListing format now]

theorem Provenance.created {s : System Upload Db SqlError} (h : Provenance env s) {r : Executable}
    (hr : r ∈ s.store.executable.rows) : ∃ u ∈ s.past 2, r.createdAt = some u.dbNow := by
  obtain ⟨us, hus, htable⟩ := h.executables
  rw [htable] at hr
  obtain ⟨y, ⟨⟨⟩⟩ | hy, _, hcreated⟩ :=
    Table.exists_source (f := Executable.createdAt) (fun _ _ ↦ rfl) hr
  obtain ⟨u, hu, hy⟩ := List.mem_flatMap.mp hy
  refine ⟨u, hus.mem_iff.mp hu, ?_⟩
  rw [← hcreated, request_executable_cases hy]
  rfl

theorem Provenance.has_executable_iff {s : System Upload Db SqlError} (h : Provenance env s)
    (k : Int64) : s.store.executable.Has k ↔ ∃ u ∈ s.past 2, u.executableId env = k := by
  constructor
  · intro hk
    obtain ⟨r, hr, rfl⟩ := Table.has_iff.mp hk
    obtain ⟨u, hu, hid, _⟩ := h.executable_row hr
    exact ⟨u, hu, hid⟩
  · rintro ⟨u, hu, rfl⟩
    exact h.has_executable hu

theorem index_ok (format : Timestamp → String) (now : Timestamp) (rows : Arrangement) {db : Db}
    (h : ∀ r ∈ db.executable.rows, r.createdAt ≠ none) :
    ∃ page, index format now rows db = .ok (page ++ [dummyListing format now]) ∧
      List.Forall₂ (fun r l ↦ l.name = r.basename ∧ l.id = r.id ∧
        r.createdAt.map format = some l.date) (rows.arrange db.executable.rows) page := by
  have hrow : ∀ r ∈ rows.arrange db.executable.rows, ∃ l : TemplateListing,
      templateListing format r = .ok l ∧
        (l.name = r.basename ∧ l.id = r.id ∧ r.createdAt.map format = some l.date) := by
    intro r hr
    obtain ⟨t, ht⟩ := Option.ne_none_iff_exists'.mp (h r (rows.mem_arrange.mp hr))
    rw [templateListing, ht]
    exact ⟨_, rfl, rfl, rfl, rfl⟩
  obtain ⟨page, hpage⟩ := exists_forall₂ hrow
  refine ⟨page, ?_, hpage.imp fun _ _ hx ↦ hx.2⟩
  exact except_map_ok.mpr ⟨page, mapM_ok.mpr (hpage.imp fun _ _ hx ↦ hx.1), rfl⟩

/-- A profile can be opened as soon as its executable has a row, also while its nodes are
still on their way. -/
theorem dag_opens (pg : Postgres) (env : Externals) (us : List Upload) (σ₁ σ₂ σ₃ : List ℕ)
    (rows iter : Arrangement) {e : Int64}
    (h : (reached pg env us (σ₁ ++ σ₂ ++ σ₃)).store.executable.Has e) :
    ∃ t, getDag rows iter e (reached pg env us σ₁).store (reached pg env us (σ₁ ++ σ₂)).store
      (reached pg env us (σ₁ ++ σ₂ ++ σ₃)).store = .ok t := by
  by_cases he : e = 123
  · exact ⟨junkTestData, by rw [getDag, if_pos he]⟩
  · obtain ⟨pb, hpb⟩ := Table.has_iff_lookup.mp h
    have hgrows : (reached pg env us σ₁).store.Grows (reached pg env us (σ₁ ++ σ₂)).store := by
      rw [reached_append]
      exact grows_run pg env _ σ₂
    rw [getDag, if_neg he, selectExecutable, hpb]
    apply renderDag_total selectStackNode_nodup
    intro n hn
    obtain ⟨d, hd, hdid⟩ := hgrows.selects_data (reached_foreignKeys pg env us σ₁) hn
    exact Table.has_upsertAll.mpr (.inr ⟨d, hd, hdid⟩)

/-- The page lists every executable once, with its name and the time of its creation, and the
test data last. It never fails, and whatever is listed can be opened from then on, however
the queries meet with uploads. -/
theorem every_listing_opens (pg : Postgres) (env : Externals) (us : List Upload) (sched : List ℕ)
    (format : Timestamp → String) (now : Timestamp) (rows : Arrangement) :
    let s := reached pg env us sched
    ∃ page, index format now rows s.store = .ok (page ++ [dummyListing format now]) ∧
      (page.map TemplateListing.id).Nodup ∧
      (∀ k, k ∈ page.map TemplateListing.id ↔ ∃ u ∈ s.past 2, u.executableId env = k) ∧
      (∀ l ∈ page, ∀ later, ∃ pb,
        metadata l.id (reached pg env us (sched ++ later)).store = .ok pb ∧
        pb.basename = l.name ∧ pb.createdAt.map format = some l.date) ∧
      ∀ l ∈ page ++ [dummyListing format now], ∀ σ₁ σ₂ σ₃ rows' iter, ∃ t,
        getDag rows' iter l.id (reached pg env us (sched ++ σ₁)).store
          (reached pg env us (sched ++ σ₁ ++ σ₂)).store
          (reached pg env us (sched ++ σ₁ ++ σ₂ ++ σ₃)).store = .ok t := by
  intro s
  have hprov : Provenance env s := provenance_run pg env us sched
  have hcreated : ∀ r ∈ s.store.executable.rows, r.createdAt ≠ none := by
    intro r hr hnone
    obtain ⟨u, _, hcreated⟩ := hprov.created hr
    rw [hnone] at hcreated
    cases hcreated
  obtain ⟨page, hindex, hpage⟩ := index_ok format now rows hcreated
  have hids : page.map TemplateListing.id =
      (rows.arrange s.store.executable.rows).map Executable.id := by
    clear hindex
    generalize rows.arrange s.store.executable.rows = pb at hpage
    induction hpage with
    | nil => rfl
    | cons hx _ ih => rw [List.map_cons, List.map_cons, hx.2.1, ih]
  have hperm := (rows.perm s.store.executable.rows).map Executable.id
  have hmem : ∀ k, k ∈ page.map TemplateListing.id ↔ s.store.executable.Has k := by
    intro k
    rw [hids, hperm.mem_iff]
    rfl
  have hstays : ∀ l ∈ page, ∀ later,
      (reached pg env us (sched ++ later)).store.executable.Has l.id := by
    intro l hl later
    rw [reached_append]
    exact (grows_run pg env s later).executable _ ((hmem _).mp (List.mem_map_of_mem hl))
  refine ⟨page, hindex, ?_, fun k ↦ ?_, fun l hl later ↦ ?_, fun l hl σ₁ σ₂ σ₃ rows' iter ↦ ?_⟩
  · rw [hids]
    exact hperm.nodup_iff.mpr s.store.executable.nodup
  · rw [hmem, hprov.has_executable_iff]
  · obtain ⟨r, hr, hname, hid, hdate⟩ := exists_of_mem_right hpage hl
    have hrow : selectExecutable l.id s.store = some r :=
      Table.lookup_eq_some.mpr ⟨rows.mem_arrange.mp hr, hid.symm⟩
    obtain ⟨b, hb, hevolves, _⟩ := executable_over_time pg env s later hrow
    rw [← reached_append] at hb
    refine ⟨b, metadata_ok.mpr hb, hevolves.basename.trans hname.symm, ?_⟩
    rw [hevolves.createdAt, hdate]
  · rcases List.mem_append.mp hl with hl | hl
    · have hhas := hstays l hl (σ₁ ++ σ₂ ++ σ₃)
      rw [← List.append_assoc, ← List.append_assoc] at hhas
      exact dag_opens pg env us (sched ++ σ₁) σ₂ σ₃ rows' iter hhas
    · rw [List.mem_singleton.mp hl]
      exact ⟨junkTestData, by rw [getDag, if_pos (by rfl)]⟩

end Sto
