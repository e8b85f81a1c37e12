import Sto.EndToEnd
import Sto.FrameIds
import Sto.Presence
import Mathlib.Tactic.Ring

namespace Sto

open Library

variable {env : Externals} {pg : Postgres} {s : System Upload Db SqlError} {us : List Upload}

/-- The fraction of an executable's samples whose path contains the frame. -/
def fractionWith (env : Externals) (us : List Upload) (e : Int64) (f : Frame) : ℚ :=
  ((samplesOf env us e).countP fun path ↦ decide (f ∈ path) : ℕ) / ((samplesOf env us e).length : ℕ)

def repeatsOf (env : Externals) (us : List Upload) (e : Int64) (f : Frame) : ℕ :=
  ((samplesOf env us e).map fun path ↦ path.count f - 1).sum

/-- The earlier version's batches are stored with all their rows, the later one has no fewer
addresses in a sample, and the frame repeats in its samples no more, both on average. -/
structure Comparable (env : Externals) (s : System Upload Db SqlError) (a b : Int64)
    (f : Frame) : Prop where
  stored : ∀ j ∈ s.jobs, j.request.executableId env = a → j.stage ≠ 2
  whole : ∀ u ∈ s.past 3, u.executableId env = a →
    (u.payload env).stackNodes.length ≤ bindLimit / 4
  addresses : addressesOf env (s.past 3) a * (samplesOf env (s.past 3) b).length ≤
    addressesOf env (s.past 3) b * (samplesOf env (s.past 3) a).length
  repeats : repeatsOf env (s.past 3) b f * (samplesOf env (s.past 3) a).length ≤
    repeatsOf env (s.past 3) a f * (samplesOf env (s.past 3) b).length

instance (s : System Upload Db SqlError) (a b : Int64) (f : Frame) :
    Decidable (Comparable env s a b f) :=
  decidable_of_iff ((∀ j ∈ s.jobs, j.request.executableId env = a → j.stage ≠ 2) ∧
    (∀ u ∈ s.past 3, u.executableId env = a →
      (u.payload env).stackNodes.length ≤ bindLimit / 4) ∧
    addressesOf env (s.past 3) a * (samplesOf env (s.past 3) b).length ≤
      addressesOf env (s.past 3) b * (samplesOf env (s.past 3) a).length ∧
    repeatsOf env (s.past 3) b f * (samplesOf env (s.past 3) a).length ≤
      repeatsOf env (s.past 3) a f * (samplesOf env (s.past 3) b).length)
    ⟨fun h ↦ ⟨h.1, h.2.1, h.2.2.1, h.2.2.2⟩,
      fun h ↦ ⟨h.stored, h.whole, h.addresses, h.repeats⟩⟩

theorem sum_count (f : Frame) (paths : List (List Frame)) :
    (paths.map (List.count f)).sum = (paths.countP fun path ↦ decide (f ∈ path)) +
      (paths.map fun path ↦ path.count f - 1).sum := by
  induction paths with
  | nil => rfl
  | cons path paths ih =>
    have hone : path.count f = (if f ∈ path then 1 else 0) + (path.count f - 1) := by
      by_cases hf : f ∈ path
      · have := List.count_pos_iff.mpr hf
        rw [if_pos hf]
        omega
      · rw [if_neg hf, List.count_eq_zero.mpr hf]
    simp only [List.map_cons, List.sum_cons, List.countP_cons, decide_eq_true_eq]
    omega

theorem hitsOf_eq (hframes : FramesDistinct env us) {vs : List Upload} (hsub : ∀ u ∈ vs, u ∈ us)
    {f : Frame} (hf : f ∈ us.flatMap fun u ↦ (u.paths env).flatten) (e : Int64) :
    hitsOf env vs e (dataRow env f).id =
      ((samplesOf env vs e).countP fun path ↦ decide (f ∈ path)) + repeatsOf env vs e f := by
  rw [repeatsOf, ← sum_count, hitsOf]
  refine congrArg List.sum (List.map_congr_left fun path hpath ↦ ?_)
  obtain ⟨u, hu, _, hpath⟩ := mem_samplesOf.mp hpath
  refine List.countP_congr fun g hg ↦ ?_
  have hmem : g ∈ us.flatMap fun u ↦ (u.paths env).flatten :=
    List.mem_flatMap.mpr ⟨u, hsub u hu, List.mem_flatten.mpr ⟨path, hpath, hg⟩⟩
  rw [decide_eq_true_eq, beq_iff_eq]
  constructor
  · exact hframes g hmem f hf
  · intro h
    rw [h]

theorem samples_lt {Sa Ra Aa na Sb Rb Ab nb : ℕ} (hna : 0 < na)
    (hhits : (Sa + Ra) * Ab < (Sb + Rb) * Aa) (haddresses : Aa * nb ≤ Ab * na)
    (hrepeats : Rb * na ≤ Ra * nb) : Sa * nb < Sb * na := by
  have hscaled : (Sa + Ra) * nb * Aa < (Sb + Rb) * na * Aa := calc
    (Sa + Ra) * nb * Aa = (Sa + Ra) * (Aa * nb) := by ring
    _ ≤ (Sa + Ra) * (Ab * na) := Nat.mul_le_mul_left _ haddresses
    _ = (Sa + Ra) * Ab * na := by ring
    _ < (Sb + Rb) * Aa * na := Nat.mul_lt_mul_of_pos_right hhits hna
    _ = (Sb + Rb) * na * Aa := by ring
  have hmeans := Nat.lt_of_mul_lt_mul_right hscaled
  rw [Nat.add_mul, Nat.add_mul] at hmeans
  omega

theorem addressesOf_past_le (e : Int64) :
    addressesOf env (s.past 3) e ≤ addressesOf env (s.past 2) e := by
  have hsub : (s.past 3).Sublist (s.past 2) :=
    (List.monotone_filter_right _ fun j hj ↦ by
      rw [decide_eq_true_eq] at hj ⊢
      omega).map _
  exact (((hsub.filter _).flatMap _).map _).sum_le_sum fun _ _ ↦ Nat.zero_le _

theorem addressesOf_past_eq {e : Int64}
    (h : ∀ j ∈ s.jobs, j.request.executableId env = e → j.stage ≠ 2) :
    addressesOf env (s.past 2) e = addressesOf env (s.past 3) e := by
  have hfilter : ((s.past 2).filter fun u ↦ u.executableId env = e) =
      (s.past 3).filter fun u ↦ u.executableId env = e := by
    rw [System.past, System.past, List.filter_map, List.filter_map, List.filter_filter,
      List.filter_filter]
    refine congrArg (List.map Job.request) (List.filter_congr fun j hj ↦ ?_)
    by_cases hexe : j.request.executableId env = e
    · have hne := h j hj hexe
      have hiff : 2 ≤ j.stage ↔ 3 ≤ j.stage := by omega
      simp only [hiff]
    · simp [hexe]
  rw [addressesOf, addressesOf, recordedOf, recordedOf, hfilter]

theorem samples_pos {e : Int64} (h : 0 < addressesOf env us e) :
    0 < (samplesOf env us e).length := by
  rw [samplesOf_eq, List.length_map]
  refine List.length_pos_iff.mpr fun hnil ↦ ?_
  rw [addressesOf, hnil] at h
  exact absurd h (lt_irrefl 0)

theorem samples_pos_of_hits {e d : Int64} (h : 0 < hitsOf env us e d) :
    0 < (samplesOf env us e).length := by
  refine List.length_pos_iff.mpr fun hnil ↦ ?_
  rw [hitsOf, hnil] at h
  exact absurd h (lt_irrefl 0)

theorem Provenance.hits_lt (h : Provenance env s) (hids : NodeIdsDistinct env us)
    (hsub : ∀ u ∈ s.past 3, u ∈ us) {a b : SymPct} (ha : s.store.Presents a)
    (hb : s.store.Presents b) (hid : a.snd.id = b.snd.id)
    (hlt : a.normalizedPresence < b.normalizedPresence) {f : Frame}
    (hcomparable : Comparable env s a.exe.id b.exe.id f) :
    hitsOf env (s.past 3) a.exe.id a.snd.id * addressesOf env (s.past 3) b.exe.id <
      hitsOf env (s.past 3) b.exe.id a.snd.id * addressesOf env (s.past 3) a.exe.id := by
  have hcount := h.positive.executables
  rw [ha.presence, hb.presence, div_lt_div_iff₀ (by exact_mod_cast hcount _ ha.exe)
    (by exact_mod_cast hcount _ hb.exe)] at hlt
  have hcounters : s.store.hits a.exe.id a.snd.id * b.exe.sampleCount <
      s.store.hits b.exe.id b.snd.id * a.exe.sampleCount := by exact_mod_cast hlt
  rw [h.addresses ha.exe, h.addresses hb.exe, addressesOf_past_eq hcomparable.stored, ← hid,
    (h.hits hids hsub a.exe.id a.snd.id).2 hcomparable.whole] at hcounters
  have hstored := (h.hits hids hsub b.exe.id a.snd.id).1
  have hpast : (addressesOf env (s.past 3) b.exe.id : ℤ) ≤ addressesOf env (s.past 2) b.exe.id := by
    exact_mod_cast addressesOf_past_le b.exe.id
  have hproducts : (hitsOf env (s.past 3) a.exe.id a.snd.id : ℤ) *
      addressesOf env (s.past 3) b.exe.id < hitsOf env (s.past 3) b.exe.id a.snd.id *
        addressesOf env (s.past 3) a.exe.id := calc
    _ ≤ (hitsOf env (s.past 3) a.exe.id a.snd.id : ℤ) * addressesOf env (s.past 2) b.exe.id :=
      mul_le_mul_of_nonneg_left hpast (Int.natCast_nonneg _)
    _ < s.store.hits b.exe.id a.snd.id * addressesOf env (s.past 3) a.exe.id := hcounters
    _ ≤ _ := mul_le_mul_of_nonneg_right hstored (Int.natCast_nonneg _)
  exact_mod_cast hproducts

theorem Provenance.fraction_lt (h : Provenance env s) (hids : NodeIdsDistinct env us)
    (hframes : FramesDistinct env us) (hsub : ∀ k, ∀ u ∈ s.past k, u ∈ us) {a b : SymPct}
    (ha : s.store.Presents a) (hb : s.store.Presents b) (hid : a.snd.id = b.snd.id)
    (hlt : a.normalizedPresence < b.normalizedPresence)
    (hcomparable : Comparable env s a.exe.id b.exe.id a.snd.frame) :
    fractionWith env (s.past 3) a.exe.id a.snd.frame <
      fractionWith env (s.past 3) b.exe.id a.snd.frame := by
  have hhits := h.hits_lt hids (hsub 3) ha hb hid hlt hcomparable
  -- the row that the two versions share is that of a frame of the batches
  obtain ⟨u, hu, hrow⟩ := h.datas _ ha.snd
  have hself : a.snd.id = (dataRow env a.snd.frame).id :=
    congrArg StackNodeData.id (Upload.mem_frameRows hrow)
  have hframe : a.snd.frame ∈ us.flatMap fun u ↦ (u.paths env).flatten := by
    rw [Upload.frameRows_eq] at hrow
    obtain ⟨f, hf, hrow⟩ := List.mem_map.mp hrow
    rw [← hrow]
    exact List.mem_flatMap.mpr ⟨u, hsub 1 u hu, hf⟩
  have haddresses : 0 < addressesOf env (s.past 3) a.exe.id := by
    have hcount := h.executable_count_pos ha.exe
    rw [h.addresses ha.exe, addressesOf_past_eq hcomparable.stored] at hcount
    omega
  have hna := samples_pos haddresses
  have hnb : 0 < (samplesOf env (s.past 3) b.exe.id).length := by
    apply samples_pos_of_hits (d := a.snd.id)
    exact Nat.pos_of_mul_pos_right (Nat.zero_lt_of_lt hhits)
  rw [hself, hitsOf_eq hframes (hsub 3) hframe, hitsOf_eq hframes (hsub 3) hframe] at hhits
  have hsamples := samples_lt hna hhits hcomparable.addresses hcomparable.repeats
  rw [fractionWith, fractionWith, div_lt_div_iff₀ (by exact_mod_cast hna) (by exact_mod_cast hnb)]
  exact_mod_cast hsamples

/-- In every state that uploads lead to, a reported regression of comparable versions is one of
the samples. The quotients of the query are taken as exact, as its `numeric`s are not. -/
theorem reported_regressions_are_real (pg : Postgres) (hids : NodeIdsDistinct env us)
    (hframes : FramesDistinct env us) (sched : List ℕ) (order : Arrangement)
    (start : Timestamp) :
    let s := reached pg env us sched
    ∃ sym rows, symPctPerVersionPerBinary s.store = .ok sym ∧
      findRegressions order start s.store = .ok rows ∧
      (∀ x ∈ rows, ∃ a b, (a, b) ∈ regressionPairs start sym ∧
        x = regression a b (pctDiff a b)) ∧
      ∀ a b, (a, b) ∈ regressionPairs start sym →
        Comparable env s a.exe.id b.exe.id a.snd.frame →
          fractionWith env (s.past 3) a.exe.id a.snd.frame <
            fractionWith env (s.past 3) b.exe.id a.snd.frame := by
  intro s
  have h := provenance_run pg env us sched
  obtain ⟨sym, hsym, hmem⟩ := symPct_ok fun r hr ↦ (h.executable_count_pos hr).ne'
  obtain ⟨rows, hrows, hreport⟩ := findRegressions_ok h.positive order start
  refine ⟨sym, rows, hsym, hrows, fun x hx ↦ ?_, fun a b hab hcomparable ↦ ?_⟩
  · obtain ⟨a, b, ha, hb, hregression, hx⟩ := (hreport x).mp hx
    exact ⟨a, b, mem_regressionPairs.mpr ⟨(hmem a).mpr ha, (hmem b).mpr hb, hregression⟩, hx⟩
  · obtain ⟨ha, hb, hregression⟩ := mem_regressionPairs.mp hab
    obtain ⟨_, _, hid, hlt, _⟩ := isRegression_iff.mp hregression
    exact h.fraction_lt hids hframes (fun k u hu ↦ past_subset pg env us sched hu)
      ((hmem a).mp ha) ((hmem b).mp hb) hid hlt hcomparable

/-- In the later version `fib` calls itself. Both versions spend all of their samples in it. -/
theorem reports_a_recursive_call :
    let us := [demoVersion "1" 1 [[[fibFrame], [mainFrame]]],
      demoVersion "2" 2 [[[fibFrame], [fibFrame], [mainFrame]]]]
    let s := reached lenientPostgres demoExternals us [0, 0, 0, 1, 1, 1]
    NodeIdsDistinct demoExternals us ∧ FramesDistinct demoExternals us ∧
      ∃ a b rows, s.store.Presents a ∧ s.store.Presents b ∧ isRegression 0 a b = true ∧
        findRegressions .asIs 0 s.store = .ok rows ∧ regression a b (pctDiff a b) ∈ rows ∧
        ¬ fractionWith demoExternals us a.exe.id a.snd.frame <
          fractionWith demoExternals us b.exe.id a.snd.frame := by
  intro us s
  have hids : NodeIdsDistinct demoExternals us := by
    decide +kernel
  have hframes : FramesDistinct demoExternals us := by
    decide +kernel
  let a : SymPct := ⟨versionRow 295873287 "1" 1 2 2, fibRow, 1 / 2⟩
  let b : SymPct := ⟨versionRow 295873288 "2" 2 3 3, fibRow, 2 / 3⟩
  have ha : s.store.Presents a := by
    decide +kernel
  have hb : s.store.Presents b := by
    decide +kernel
  have hregression : isRegression 0 a b = true := by decide +kernel
  obtain ⟨rows, hrows, hmem⟩ := findRegressions_ok
    (provenance_run lenientPostgres demoExternals us [0, 0, 0, 1, 1, 1]).positive .asIs 0
  refine ⟨hids, hframes, a, b, rows, ha, hb, hregression, hrows,
    (hmem _).mpr ⟨a, b, ha, hb, hregression, rfl⟩, ?_⟩
  decide +kernel

theorem reported_regressions_are_real_demo :
    let us := [demoVersion "1" 1 [[[mainFrame]], [[fibFrame], [mainFrame]]],
      demoVersion "2" 2 [[[fibFrame], [mainFrame]], [[fibFrame], [mainFrame]]]]
    let s := reached lenientPostgres demoExternals us [0, 0, 0, 1, 1, 1]
    ∃ sym rows a b, symPctPerVersionPerBinary s.store = .ok sym ∧
      findRegressions .asIs 0 s.store = .ok rows ∧ (a, b) ∈ regressionPairs 0 sym ∧
      fractionWith demoExternals (s.past 3) a.exe.id a.snd.frame <
        fractionWith demoExternals (s.past 3) b.exe.id a.snd.frame := by
  intro us s
  have hids : NodeIdsDistinct demoExternals us := by
    decide +kernel
  have hframes : FramesDistinct demoExternals us := by
    decide +kernel
  let a : SymPct := ⟨versionRow 295873287 "1" 1 3 2, fibRow, 1 / 3⟩
  let b : SymPct := ⟨versionRow 295873288 "2" 2 4 2, fibRow, 2 / 4⟩
  have ha : s.store.Presents a := by
    decide +kernel
  have hb : s.store.Presents b := by
    decide +kernel
  have hcomparable : Comparable demoExternals s a.exe.id b.exe.id a.snd.frame := by
    decide +kernel
  obtain ⟨sym, rows, hsym, hrows, _, hreal⟩ := reported_regressions_are_real lenientPostgres hids
    hframes [0, 0, 0, 1, 1, 1] .asIs 0
  have h := provenance_run lenientPostgres demoExternals us [0, 0, 0, 1, 1, 1]
  obtain ⟨sym', hsym', hmem⟩ := symPct_ok fun r hr ↦ (h.executable_count_pos hr).ne'
  obtain rfl : sym = sym' := Except.ok.inj (hsym.symm.trans hsym')
  have hpair : (a, b) ∈ regressionPairs 0 sym :=
    mem_regressionPairs.mpr ⟨(hmem a).mpr ha, (hmem b).mpr hb, by decide +kernel⟩
  exact ⟨sym, rows, a, b, hsym, hrows, hpair, hreal a b hpair hcomparable⟩

end Sto
