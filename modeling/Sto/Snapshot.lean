import Sto.EndToEnd
import Sto.Growth

namespace Sto

open Library

variable {env : Externals} {pg : Postgres} {us : List Upload} {e : Int64}

theorem FramesDistinct.mono {vs : List Upload} (h : FramesDistinct env us)
    (hsub : ∀ v ∈ vs, v ∈ us) : FramesDistinct env vs := by
  intro f hf g hg
  obtain ⟨u, hu, hf⟩ := List.mem_flatMap.mp hf
  obtain ⟨v, hv, hg⟩ := List.mem_flatMap.mp hg
  exact h f (List.mem_flatMap.mpr ⟨u, hsub u hu, hf⟩) g (List.mem_flatMap.mpr ⟨v, hsub v hv, hg⟩)

theorem Replay.mem_rows {s : System Upload Db SqlError} (h : Replay env s)
    (hids : NodeIdsDistinct env (s.past 3)) {n : StackNode} :
    n ∈ s.store.stackNode.rows ↔
      ∃ o ∈ (s.past 3).flatMap (Upload.occurrences env), n = countedRow env (s.past 3) o := by
  obtain ⟨vs, hvs, hsame⟩ := h.nodes
  have hocc : ∀ o, o ∈ vs.flatMap (Upload.occurrences env) ↔
      o ∈ (s.past 3).flatMap (Upload.occurrences env) := fun o ↦ (hvs.flatMap_right _).mem_iff
  have hrow : ∀ o ∈ (s.past 3).flatMap (Upload.occurrences env), ∀ m ∈ s.store.stackNode.rows,
      o.id = m.id → m = countedRow env (s.past 3) o := by
    intro o ho m hm hid
    obtain ⟨x, ⟨⟨⟩⟩ | hx, hxid, hrefs⟩ := Table.exists_source
      (f := fun n : StackNode ↦ (n.parentId, n.stackNodeDataId, n.executableId)) (fun _ _ ↦ rfl)
      (hsame.perm.mem_iff.mp hm)
    have hcount := sampleCount_eq hsame hm
    have hsame' := hids o ho x ((hocc x).mp hx) (hid.trans hxid.symm)
    simp only [Prod.mk.injEq] at hrefs
    rw [(hvs.flatMap_right _).countP_eq, ← hid] at hcount
    rw [countedRow, ← hcount]
    exact count_congr hid.symm ⟨hrefs.1.symm.trans hsame'.1.symm,
      hrefs.2.1.symm.trans hsame'.2.1.symm, hrefs.2.2.symm.trans hsame'.2.2.symm⟩ m.sampleCount
  constructor
  · intro hn
    obtain ⟨x, ⟨⟨⟩⟩ | hx, hid, _⟩ := Table.exists_source (f := StackNode.executableId)
      (fun _ _ ↦ rfl) (hsame.perm.mem_iff.mp hn)
    exact ⟨x, (hocc x).mp hx, hrow x ((hocc x).mp hx) n hn hid⟩
  · intro hx
    obtain ⟨o, ho, rfl⟩ := hx
    have hhas : s.store.stackNode.Has o.id := by
      rw [hsame.has_iff, Table.has_upsertAll]
      exact .inr ⟨o, (hocc o).mpr ho, rfl⟩
    obtain ⟨m, hm, hmid⟩ := Table.has_iff.mp hhas
    exact hrow o ho m hm hmid.symm ▸ hm

/-- The nodes of one state and the frames of a later one fit together: they are the call tree
of the uploads that had committed their nodes in the first. -/
theorem selects_committed (pg : Postgres) (hl : ∀ u ∈ us, u.WithinLimit env)
    (hframes : FramesDistinct env us) (hids : NodeIdsDistinct env us) (sched later : List ℕ)
    (rows : Arrangement) (e : Int64) :
    let s := reached pg env us sched
    let s' := reached pg env us (sched ++ later)
    Selects env e (samplesOf env (s.past 3) e) (selectStackNode rows e s.store)
      (selectStackNodeData rows e s'.store) := by
  intro s s'
  have hsub : ∀ u ∈ s.past 3, u ∈ us := fun u hu ↦ past_subset pg env us sched hu
  have hframes₃ := hframes.mono hsub
  have hids₃ := hids.mono hsub
  have hgrows : s.store.Grows s'.store := by
    change s.store.Grows (reached pg env us (sched ++ later)).store
    rw [reached_append]
    exact grows_run pg env s later
  have hrow : ∀ p f, Starts (samplesOf env (s.past 3) e) (p ++ [f]) →
      countedRow env (s.past 3) (pathNode env e (pathId env e none p) f) =
        pathRow env e (samplesOf env (s.past 3) e) p f := by
    intro p f hstarts
    rw [countedRow, countP_occurrences hframes₃ hids₃ hstarts fun _ hu ↦ hu]
    rfl
  have hmem : ∀ n, n ∈ selectStackNode rows e s.store ↔ ∃ p f,
      Starts (samplesOf env (s.past 3) e) (p ++ [f]) ∧
        n = pathRow env e (samplesOf env (s.past 3) e) p f := by
    intro n
    rw [mem_selectStackNode, (replay_run pg hl sched).mem_rows hids₃]
    constructor
    · intro hx
      obtain ⟨⟨o, ho, rfl⟩, hexe⟩ := hx
      obtain ⟨p, f, hstarts, rfl⟩ := mem_occurrences_iff.mp ⟨ho, hexe⟩
      exact ⟨p, f, hstarts, hrow p f hstarts⟩
    · intro hx
      obtain ⟨p, f, hstarts, rfl⟩ := hx
      exact ⟨⟨_, starts_node_mem hstarts, (hrow p f hstarts).symm⟩, rfl⟩
  refine ⟨selectStackNode_nodup, hmem, fun p f hstarts ↦ ?_, fun p q ↦ pathId_inj hframes₃ hids₃⟩
  obtain ⟨d, hd, hdid⟩ := hgrows.selects_data (reached_foreignKeys pg env us sched)
    ((hmem _).mpr ⟨p, f, hstarts, rfl⟩)
  have hhas : (dataMap (selectStackNodeData rows e s'.store)).Has (dataRow env f).id :=
    Table.has_upsertAll.mpr (.inr ⟨d, hd, hdid⟩)
  obtain ⟨d', hd'⟩ := Table.has_iff_lookup.mp hhas
  have hstored := (mem_selectStackNodeData.mp (Table.mem_of_lookup_last hd')).1
  obtain ⟨u, hu, hrow'⟩ := (provenance_run pg env us (sched ++ later)).datas d' hstored
  rw [Upload.frameRows_eq] at hrow'
  obtain ⟨g, hg, rfl⟩ := List.mem_map.mp hrow'
  have hgmem : g ∈ us.flatMap fun u ↦ (u.paths env).flatten :=
    List.mem_flatMap.mpr ⟨u, past_subset pg env us _ hu, hg⟩
  obtain ⟨v, hv, hf⟩ := List.mem_flatMap.mp (frame_mem hstarts)
  have hfmem : f ∈ us.flatMap fun u ↦ (u.paths env).flatten :=
    List.mem_flatMap.mpr ⟨v, hsub v hv, hf⟩
  rw [hd', hframes g hgmem f hfmem (Table.lookup_key hd')]

theorem Selects.draws {paths : List (List Frame)} {sn : List StackNode}
    {snd : List StackNodeData} (h : Selects env e paths sn snd) (order : Arrangement)
    (pb : Executable) : ∃ ts, PrefixForest (drawFrame env) paths [] ts ∧
      Sto.renderDag order sn snd pb = .ok (drawRoot pb ts) := by
  by_cases hne : paths = []
  · have hnone : ∀ p, ¬ Starts paths p := by
      intro p hp
      obtain ⟨path, hpath, _⟩ := hp
      rw [hne] at hpath
      cases hpath
    have hsn : sn = [] := by
      rw [List.eq_nil_iff_forall_not_mem]
      intro n hn
      obtain ⟨p, f, hstarts, _⟩ := (h.mem n).mp hn
      exact hnone _ hstarts
    refine ⟨[], ?_, by rw [hsn]; rfl⟩
    exact .intro [] List.nodup_nil (fun f ↦ ⟨nofun, fun hf ↦ absurd hf (hnone _)⟩) nofun
  · exact h.renderDag order hne pb

theorem dag_committed (pg : Postgres) (hl : ∀ u ∈ us, u.WithinLimit env)
    (hframes : FramesDistinct env us) (hids : NodeIdsDistinct env us) (sched later : List ℕ)
    (rows iter : Arrangement) (he : e ≠ 123) {db : Db} {pb : Executable}
    (hpb : selectExecutable e db = some pb) :
    ∃ ts, getDag rows iter e (reached pg env us sched).store
        (reached pg env us (sched ++ later)).store db = .ok (drawRoot pb ts) ∧
      PrefixForest (drawFrame env) (samplesOf env ((reached pg env us sched).past 3) e) [] ts := by
  obtain ⟨ts, hts, hdag⟩ :=
    (selects_committed pg hl hframes hids sched later rows e).draws iter pb
  refine ⟨ts, ?_, hts⟩
  rw [getDag, if_neg he, hpb]
  exact hdag

/-- `GET /dag/<id>` amid uploads: whatever commits between its three queries, it answers with
the call tree of the samples that were in when the first of them ran, all of an upload's or
none. It fails only while there is no row for the executable. -/
theorem dag_is_a_snapshot (pg : Postgres) (hl : ∀ u ∈ us, u.WithinLimit env)
    (hframes : FramesDistinct env us) (hids : NodeIdsDistinct env us) (σ₁ σ₂ σ₃ : List ℕ)
    (rows iter : Arrangement) (he : e ≠ 123) :
    let s₁ := reached pg env us σ₁
    let s₂ := reached pg env us (σ₁ ++ σ₂)
    let s₃ := reached pg env us (σ₁ ++ σ₂ ++ σ₃)
    let answer := getDag rows iter e s₁.store s₂.store s₃.store
    ((∃ u ∈ s₃.past 2, u.executableId env = e) →
      ∃ pb ts, selectExecutable e s₃.store = some pb ∧ answer = .ok (drawRoot pb ts) ∧
        PrefixForest (drawFrame env) (samplesOf env (s₁.past 3) e) [] ts) ∧
    ((∀ u ∈ s₃.past 2, u.executableId env ≠ e) → answer = .error .executableMissing) := by
  intro s₁ s₂ s₃ answer
  have hhas := (replay_run pg hl (σ₁ ++ σ₂ ++ σ₃)).has_executable e
  constructor
  · intro hexe
    obtain ⟨pb, hpb⟩ := Table.has_iff_lookup.mp (hhas.mpr hexe)
    obtain ⟨ts, hdag, hts⟩ :=
      dag_committed pg hl hframes hids σ₁ σ₂ rows iter he hpb
    exact ⟨pb, ts, hpb, hdag, hts⟩
  · intro hnone
    have hmissing : s₃.store.executable.lookup e = none := by
      rw [Table.lookup_eq_none, hhas]
      rintro ⟨u, hu, hid⟩
      exact hnone u hu hid
    change getDag rows iter e s₁.store s₂.store s₃.store = _
    rw [getDag, if_neg he, selectExecutable, hmissing]

theorem dag_is_a_snapshot_demo :
    let s₁ := reached lenientPostgres demoExternals [demoUpload, demoUpload] [0, 0, 0]
    let s₂ := reached lenientPostgres demoExternals [demoUpload, demoUpload] ([0, 0, 0] ++ [1])
    let s₃ := reached lenientPostgres demoExternals [demoUpload, demoUpload]
      ([0, 0, 0] ++ [1] ++ [1, 1])
    ∃ pb ts, selectExecutable 9544298 s₃.store = some pb ∧
      getDag .asIs .reversed 9544298 s₁.store s₂.store s₃.store = .ok (drawRoot pb ts) ∧
      PrefixForest (drawFrame demoExternals) (samplesOf demoExternals (s₁.past 3) 9544298) []
        ts := by
  have hl : ∀ u ∈ [demoUpload, demoUpload], u.WithinLimit demoExternals := by
    simpa using demoUpload_withinLimit
  have hsnapshot := dag_is_a_snapshot lenientPostgres hl (by decide +kernel) (by decide +kernel)
    [0, 0, 0] [1] [1, 1] .asIs .reversed (show (9544298 : Int64) ≠ 123 by decide)
  exact hsnapshot.1 (by decide +kernel)

/-- Whatever is in the first drawing is in the second one, at the same place, with the same
texts and a value that is not less. -/
inductive D3FlamegraphData.Within : D3FlamegraphData → D3FlamegraphData → Prop
  | intro {a b : D3FlamegraphData} {kids : List D3FlamegraphData} : a.name = b.name →
      a.filename = b.filename → a.lineNumber = b.lineNumber → a.value ≤ b.value →
      List.Forall₂ Within (a.children.getD []) kids → kids.Subperm (b.children.getD []) → Within a b

theorem drawFrame_children (f : Frame) (count : ℕ) (kids : List D3FlamegraphData) :
    (drawFrame env f count kids).children.getD [] = kids := by
  cases kids <;> rfl

theorem within_drawFrame (f : Frame) (c c' : ℕ) (kids kids' : List D3FlamegraphData) (hc : c ≤ c')
    (hkids : Covered D3FlamegraphData.Within kids kids') :
    (drawFrame env f c kids).Within (drawFrame env f c' kids') := by
  obtain ⟨ks, hall, hsub⟩ := hkids
  refine @D3FlamegraphData.Within.intro _ _ ks rfl rfl rfl (Int.ofNat_le.mpr hc) ?_ ?_
  · rwa [drawFrame_children]
  · rwa [drawFrame_children]

theorem samplesOf_subperm {vs : List Upload} (h : us.Subperm vs) (e : Int64) :
    (samplesOf env us e).Subperm (samplesOf env vs e) := by
  obtain ⟨l, hperm, hsub⟩ := h
  exact ⟨samplesOf env l e, (hperm.filter _).flatMap_right _, (hsub.filter _).flatMap _⟩

abbrev after (pg : Postgres) (env : Externals) (us : List Upload) (sched : List ℕ) (n : ℕ) :
    System Upload Db SqlError := reached pg env us (sched.take n)

theorem after_le {sched : List ℕ} {n m : ℕ} (h : n ≤ m) :
    after pg env us sched m =
      (after pg env us sched n).run (program pg env) ((sched.take m).drop n) := by
  have hsplit := List.take_append_drop n (sched.take m)
  rw [List.take_take, Nat.min_eq_left h] at hsplit
  rw [after, after, ← reached_append, hsplit]

theorem basename_after {sched : List ℕ} {n m : ℕ} {a b : Executable}
    (ha : selectExecutable e (after pg env us sched n).store = some a)
    (hb : selectExecutable e (after pg env us sched m).store = some b) :
    a.basename = b.basename := by
  have hlater : ∀ {n m : ℕ} {a b : Executable}, n ≤ m →
      selectExecutable e (after pg env us sched n).store = some a →
      selectExecutable e (after pg env us sched m).store = some b → b.basename = a.basename := by
    intro n m a b hle ha hb
    obtain ⟨c, hc, hevolves, _⟩ := executable_over_time pg env _ ((sched.take m).drop n) ha
    rw [← after_le hle, hb] at hc
    rw [Option.some_inj.mp hc]
    exact hevolves.basename
  obtain hle | hle := Nat.le_total n m
  · exact (hlater hle ha hb).symm
  · exact hlater hle hb ha

theorem read_after (pg : Postgres) (hl : ∀ u ∈ us, u.WithinLimit env)
    (hframes : FramesDistinct env us) (hids : NodeIdsDistinct env us) {sched : List ℕ}
    {n₁ n₂ n₃ : ℕ} (h₁₂ : n₁ ≤ n₂) {rows iter : Arrangement} (he : e ≠ 123)
    {t : D3FlamegraphData}
    (ht : getDag rows iter e (after pg env us sched n₁).store (after pg env us sched n₂).store
      (after pg env us sched n₃).store = .ok t) :
    ∃ pb ts, selectExecutable e (after pg env us sched n₃).store = some pb ∧ t = drawRoot pb ts ∧
      PrefixForest (drawFrame env) (samplesOf env ((after pg env us sched n₁).past 3) e) [] ts := by
  cases hpb : selectExecutable e (after pg env us sched n₃).store with
  | none =>
    rw [getDag, if_neg he, hpb] at ht
    cases ht
  | some pb =>
    obtain ⟨ts, hdag, hts⟩ := dag_committed pg hl hframes hids (sched.take n₁)
      ((sched.take n₂).drop n₁) rows iter he hpb
    rw [reached_append, ← after_le h₁₂, ht] at hdag
    exact ⟨pb, ts, rfl, Except.ok.inj hdag, hts⟩

/-- Of two answers, the one whose first query ran later shows everything that the other one
does, however the queries of both and the transactions of the uploads are interleaved. -/
theorem reads_are_monotone (pg : Postgres) (hl : ∀ u ∈ us, u.WithinLimit env)
    (hframes : FramesDistinct env us) (hids : NodeIdsDistinct env us) (sched : List ℕ)
    {n₁ n₂ n₃ m₁ m₂ m₃ : ℕ} (h₁₂ : n₁ ≤ n₂) (h₁₂' : m₁ ≤ m₂) (hfirst : n₁ ≤ m₁)
    {rows iter rows' iter' : Arrangement} (he : e ≠ 123) {t t' : D3FlamegraphData}
    (ht : getDag rows iter e (after pg env us sched n₁).store (after pg env us sched n₂).store
      (after pg env us sched n₃).store = .ok t)
    (ht' : getDag rows' iter' e (after pg env us sched m₁).store (after pg env us sched m₂).store
      (after pg env us sched m₃).store = .ok t') : t.Within t' := by
  obtain ⟨pb, ts, hpb, rfl, hts⟩ := read_after pg hl hframes hids h₁₂ he ht
  obtain ⟨pb', ts', hpb', rfl, hts'⟩ := read_after pg hl hframes hids h₁₂' he ht'
  have hpast : ((after pg env us sched n₁).past 3).Subperm ((after pg env us sched m₁).past 3) := by
    rw [after_le hfirst]
    exact System.past_subperm _ _ _ 3
  have hsamples : (samplesOf env ((after pg env us sched n₁).past 3) e).Subperm
      (samplesOf env ((after pg env us sched m₁).past 3) e) := samplesOf_subperm hpast e
  obtain ⟨kids, hall, hsub⟩ := PrefixForest.covered (R := D3FlamegraphData.Within)
    within_drawFrame (fun q ↦ hsamples.countP_le _) hts hts'
  refine .intro (basename_after hpb hpb') rfl rfl ?_ hall hsub
  change (ts.map D3FlamegraphData.value).sum ≤ (ts'.map D3FlamegraphData.value).sum
  rw [sum_values hts, sum_values hts']
  exact Int.ofNat_le.mpr (hsamples.countP_le _)

theorem reads_are_monotone_demo : ∃ t t' : D3FlamegraphData,
    let at_ := fun n ↦
      (after lenientPostgres demoExternals [demoUpload, demoUpload] [0, 0, 0, 1, 1, 1] n).store
    getDag .asIs .reversed 9544298 (at_ 3) (at_ 5) (at_ 6) = .ok t ∧
      getDag .reversed .asIs 9544298 (at_ 4) (at_ 4) (at_ 5) = .ok t' ∧ t.Within t' := by
  have hl : ∀ u ∈ [demoUpload, demoUpload], u.WithinLimit demoExternals := by
    intro u hu
    obtain rfl : u = demoUpload := by simpa using hu
    exact demoUpload_withinLimit
  have hframes : FramesDistinct demoExternals [demoUpload, demoUpload] := by decide +kernel
  have hids : NodeIdsDistinct demoExternals [demoUpload, demoUpload] := by decide +kernel
  have hrow : ∀ n ∈ [5, 6], ∃ pb, selectExecutable 9544298 (after lenientPostgres demoExternals
      [demoUpload, demoUpload] [0, 0, 0, 1, 1, 1] n).store = some pb := by
    intro n hn
    apply Option.isSome_iff_exists.mp
    revert n
    decide +kernel
  obtain ⟨pb, hpb⟩ := hrow 6 (by decide)
  obtain ⟨pb', hpb'⟩ := hrow 5 (by decide)
  obtain ⟨ts, ht, _⟩ := dag_committed lenientPostgres hl hframes hids [0, 0, 0] [1, 1] .asIs
    .reversed (by decide) hpb
  obtain ⟨ts', ht', _⟩ := dag_committed lenientPostgres hl hframes hids [0, 0, 0, 1] [] .reversed
    .asIs (by decide) hpb'
  exact ⟨_, _, ht, ht', reads_are_monotone lenientPostgres hl hframes hids [0, 0, 0, 1, 1, 1]
    (by decide : 3 ≤ 5) (by decide : 4 ≤ 4) (by decide : 3 ≤ 4) (by decide) ht ht'⟩

/-- The distinct paths from an outermost frame in that some sample goes along. -/
def callPaths (paths : List (List Frame)) : List (List Frame) :=
  (paths.flatMap fun path ↦ path.inits.filter (· ≠ [])).dedup

theorem mem_callPaths {paths : List (List Frame)} {p : List Frame} :
    p ∈ callPaths paths ↔ p ≠ [] ∧ Starts paths p := by
  simp only [callPaths, List.mem_dedup, List.mem_flatMap, List.mem_filter, List.mem_inits,
    decide_eq_true_eq]
  constructor
  · rintro ⟨path, hpath, hprefix, hne⟩
    exact ⟨hne, path, hpath, hprefix⟩
  · rintro ⟨hne, path, hpath, hprefix⟩
    exact ⟨path, hpath, hprefix, hne⟩

theorem Selects.rows_length {paths : List (List Frame)} {sn : List StackNode}
    {snd : List StackNodeData} (h : Selects env e paths sn snd) :
    sn.length = (callPaths paths).length := by
  have hperm : (sn.map fun n ↦ some n.id).Perm ((callPaths paths).map (pathId env e none)) := by
    apply (List.perm_ext_iff_of_nodup ?_ ?_).mpr
    · intro k
      simp only [List.mem_map, mem_callPaths]
      constructor
      · rintro ⟨n, hn, rfl⟩
        obtain ⟨p, f, hstarts, rfl⟩ := (h.mem n).mp hn
        exact ⟨p ++ [f], ⟨by simp, hstarts⟩, pathId_concat e p f⟩
      · rintro ⟨p, ⟨hne, hstarts⟩, rfl⟩
        obtain ⟨q, f, rfl⟩ := (List.eq_nil_or_concat' p).resolve_left hne
        exact ⟨_, h.row_mem hstarts, pathRow_id q f⟩
    · have hnodup := h.nodup.map (Option.some_injective _)
      rwa [List.map_map] at hnodup
    · refine (List.nodup_dedup _).map_on fun p hp q hq hid ↦ ?_
      exact h.inj p q (mem_callPaths.mp hp).2 (mem_callPaths.mp hq).2 hid
  have hlength := hperm.length_eq
  rwa [List.length_map, List.length_map] at hlength

/-- What is stored grows with the number of different things seen, not with how often they
are: a row for each call path of an executable, for each frame and for each executable. -/
theorem one_row_each (pg : Postgres) (hl : ∀ u ∈ us, u.WithinLimit env)
    (hframes : FramesDistinct env us) (hids : NodeIdsDistinct env us) (sched : List ℕ) :
    let s := reached pg env us sched
    (∀ e, (s.store.stackNode.rows.filter fun n ↦ n.executableId = e).length =
      (callPaths (samplesOf env (s.past 3) e)).length) ∧
    s.store.stackNodeData.rows.length =
      ((s.past 1).flatMap fun u ↦ (u.paths env).flatten).dedup.length ∧
    s.store.executable.rows.length = ((s.past 2).map (Upload.executableId env)).dedup.length := by
  intro s
  have hreplay : Replay env s := replay_run pg hl sched
  refine ⟨fun e ↦ ?_, ?_, ?_⟩
  · have hselects := selects_committed pg hl hframes hids sched [] .asIs e
    exact hselects.rows_length
  · have hperm : (s.store.stackNodeData.rows.map StackNodeData.id).Perm
        (((s.past 1).flatMap fun u ↦ (u.paths env).flatten).dedup.map fun f ↦
          (dataRow env f).id) := by
      apply (List.perm_ext_iff_of_nodup s.store.stackNodeData.nodup ?_).mpr
      · intro k
        refine (hreplay.has_data_iff k).trans ?_
        simp only [Upload.frameRows_eq, List.mem_map, List.mem_dedup, List.mem_flatMap]
        constructor
        · rintro ⟨u, hu, _, ⟨f, hf, rfl⟩, rfl⟩
          exact ⟨f, ⟨u, hu, hf⟩, rfl⟩
        · rintro ⟨f, ⟨u, hu, hf⟩, rfl⟩
          exact ⟨u, hu, _, ⟨f, hf, rfl⟩, rfl⟩
      · have hdistinct := hframes.mono fun u hu ↦ past_subset pg env us sched (k := 1) hu
        refine (List.nodup_dedup _).map_on fun f hf g hg hid ↦ ?_
        exact hdistinct f (List.mem_dedup.mp hf) g (List.mem_dedup.mp hg) hid
    have hlength := hperm.length_eq
    rwa [List.length_map, List.length_map] at hlength
  · have hperm : (s.store.executable.rows.map Executable.id).Perm
        ((s.past 2).map (Upload.executableId env)).dedup := by
      apply (List.perm_ext_iff_of_nodup s.store.executable.nodup (List.nodup_dedup _)).mpr
      intro k
      refine (hreplay.has_executable k).trans ?_
      rw [List.mem_dedup, List.mem_map]
    have hlength := hperm.length_eq
    rwa [List.length_map] at hlength

theorem one_row_each_demo :
    let s := reached lenientPostgres demoExternals [demoUpload, demoUpload] [0, 1, 0, 1, 0, 1]
    (∀ e, (s.store.stackNode.rows.filter fun n ↦ n.executableId = e).length =
      (callPaths (samplesOf demoExternals (s.past 3) e)).length) ∧
    s.store.stackNodeData.rows.length =
      ((s.past 1).flatMap fun u ↦ (u.paths demoExternals).flatten).dedup.length ∧
    s.store.executable.rows.length =
      ((s.past 2).map (Upload.executableId demoExternals)).dedup.length := by
  apply one_row_each
  · intro u hu
    obtain rfl : u = demoUpload := by simpa using hu
    exact demoUpload_withinLimit
  · decide +kernel
  · decide +kernel

end Sto
