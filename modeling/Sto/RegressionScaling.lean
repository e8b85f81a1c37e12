import Sto.EndToEnd
import Sto.Presence
import Sto.SampleCounts

namespace Sto

open Library

variable {env : Externals} {pg : Postgres} {us us' : List Upload} {db db' : Db}

def Upload.batch (u : Upload) : Args × List (List (List SymbolizedResult)) := (u.args, u.symlists)

theorem Upload.executableId_of_batch {u v : Upload} (h : u.batch = v.batch) :
    u.executableId env = v.executableId env := by
  have hargs : u.args = v.args := congrArg Prod.fst h
  rw [executableId, executableId, hargs]

/-- What the query sees of uploads that were all stored whole. -/
structure Profiled (env : Externals) (us : List Upload) (db : Db) : Prop where
  positive : db.Positive
  foreignKeys : db.ForeignKeys
  executable : ∀ u ∈ us, db.executable.Has (u.executableId env)
  release : ∀ r ∈ db.executable.rows, ∃ u ∈ us, u.executableId env = r.id ∧ u.release = r.release
  data : ∀ d ∈ db.stackNodeData.rows, ∃ u ∈ us, d ∈ u.frameRows env
  addresses : ∀ r ∈ db.executable.rows, r.sampleCount = addressesOf env us r.id
  hits : ∀ e d, db.hits e d = hitsOf env us e d

theorem Profiled.presence (h : Profiled env us db) {p : SymPct} (hp : db.Presents p) :
    p.normalizedPresence =
      (hitsOf env us p.exe.id p.snd.id : ℚ) / addressesOf env us p.exe.id := by
  rw [hp.presence, h.hits, h.addresses _ hp.exe, Int.cast_natCast, Int.cast_natCast]

structure SameRow (p p' : SymPct) : Prop where
  id : p'.exe.id = p.exe.id
  release : p'.exe.release = p.exe.release
  createdAt : p'.exe.createdAt = p.exe.createdAt
  snd : p'.snd = p.snd
  presence : p'.normalizedPresence = p.normalizedPresence

theorem SameRow.isRegression {start : Timestamp} {a a' b b' : SymPct} (ha : SameRow a a')
    (hb : SameRow b b') : isRegression start a' b' = isRegression start a b := by
  obtain ⟨hname, _⟩ := Prod.mk.inj ha.release
  obtain ⟨hname', _⟩ := Prod.mk.inj hb.release
  simp only [Sto.isRegression, ha.id, hb.id, ha.createdAt, hb.createdAt, ha.snd, hb.snd,
    ha.presence, hb.presence, hname, hname']

theorem SameRow.regression {a a' b b' : SymPct} (ha : SameRow a a') (hb : SameRow b b') :
    regression a' b' (pctDiff a' b') = regression a b (pctDiff a b) := by
  obtain ⟨hname, hversion⟩ := Prod.mk.inj ha.release
  obtain ⟨_, hversion'⟩ := Prod.mk.inj hb.release
  simp only [Sto.regression, pctDiff, ha.snd, ha.presence, hb.presence, hname, hversion,
    hversion']

/-- The second uploads have the batches of the first ones, and their counters are in
proportion for each executable. -/
structure Scaled (env : Externals) (us us' : List Upload) : Prop where
  batch : ∀ u ∈ us, ∃ u' ∈ us', u'.batch = u.batch
  ratio : ∀ e, ∃ m n : ℕ, 0 < m ∧ 0 < n ∧
    m * addressesOf env us' e = n * addressesOf env us e ∧
    ∀ d, m * hitsOf env us' e d = n * hitsOf env us e d

theorem ratio_eq {m n x y x' y' : ℕ} (hm : 0 < m) (hn : 0 < n) (hx : m * x' = n * x)
    (hy : m * y' = n * y) : (x' : ℚ) / y' = x / y := by
  rw [← mul_div_mul_left (x' : ℚ) y' (Nat.cast_ne_zero.mpr hm.ne'),
    ← mul_div_mul_left (x : ℚ) y (Nat.cast_ne_zero.mpr hn.ne')]
  exact_mod_cast congrArg₂ (fun a b : ℕ ↦ (a : ℚ) / b) hx hy

/-- Equal ids stand for equal releases and frames in the two lists of uploads, and for
executables that were created at the same time in the two databases. -/
structure SameIds (env : Externals) (us us' : List Upload) (db db' : Db) : Prop where
  releases : ∀ u ∈ us, ∀ u' ∈ us', u.executableId env = u'.executableId env →
    u.release = u'.release
  frames : ∀ u ∈ us, ∀ d ∈ u.frameRows env, ∀ u' ∈ us', ∀ d' ∈ u'.frameRows env,
    d.id = d'.id → d = d'
  created : ∀ r ∈ db.executable.rows, ∀ r' ∈ db'.executable.rows, r.id = r'.id →
    r.createdAt = r'.createdAt

theorem SameIds.symm (h : SameIds env us us' db db') : SameIds env us' us db' db where
  releases u' hu' u hu hid := (h.releases u hu u' hu' hid.symm).symm
  frames u' hu' d' hd' u hu d hd hid := (h.frames u hu d hd u' hu' d' hd' hid.symm).symm
  created r' hr' r hr hid := (h.created r hr r' hr' hid.symm).symm

theorem Profiled.presents (h : Profiled env us db) (h' : Profiled env us' db')
    (hscaled : Scaled env us us') (hids : SameIds env us us' db db') {p : SymPct}
    (hp : db.Presents p) : ∃ p', db'.Presents p' ∧ SameRow p p' := by
  -- the executable
  obtain ⟨u, hu, hid, hrelease⟩ := h.release _ hp.exe
  obtain ⟨u', hu', hbatch⟩ := hscaled.batch u hu
  have hid' : u'.executableId env = p.exe.id := (Upload.executableId_of_batch hbatch).trans hid
  obtain ⟨r', hr', hr'id⟩ := Table.has_iff.mp (h'.executable u' hu')
  have hsame : r'.id = p.exe.id := hr'id.trans hid'
  obtain ⟨v', hv', hv'id, hv'release⟩ := h'.release r' hr'
  -- the counters
  obtain ⟨m, n, hm, hn, haddresses, hhits⟩ := hscaled.ratio p.exe.id
  have hpos : 0 < db'.hits p.exe.id p.snd.id := by
    have hold := h.positive.hits_pos hp.node
    rw [h.hits] at hold
    have hnew : 0 < m * hitsOf env us' p.exe.id p.snd.id := by
      rw [hhits]
      exact Nat.mul_pos hn (by omega)
    rw [h'.hits]
    exact_mod_cast Nat.pos_of_mul_pos_left hnew
  -- the node, and with it the data
  obtain ⟨node, hnode, hof⟩ := Db.exists_of_hits_pos hpos
  obtain ⟨hofData, hofExe⟩ := Db.ofFrame_iff.mp hof
  have hdata := (Db.resolves_iff.mp (h'.foreignKeys node hnode)).2.1
  obtain ⟨d', hd', hd'id⟩ := Table.has_iff.mp hdata
  obtain ⟨w, hw, hrow⟩ := h.data _ hp.snd
  obtain ⟨w', hw', hrow'⟩ := h'.data d' hd'
  obtain rfl : p.snd = d' :=
    hids.frames w hw _ hrow w' hw' _ hrow' (hofData.symm.trans hd'id.symm)
  refine ⟨⟨r', p.snd, p.normalizedPresence⟩, ⟨hr', hd', ⟨node, hnode, ?_⟩, ?_⟩,
    ⟨hsame, ?_, ?_, rfl, rfl⟩⟩
  · exact Db.ofFrame_iff.mpr ⟨hofData, hofExe.trans hsame.symm⟩
  · dsimp only
    rw [hsame, h'.hits, h'.addresses r' hr', hsame, h.presence hp, Int.cast_natCast,
      Int.cast_natCast]
    exact (ratio_eq hm hn (hhits _) haddresses).symm
  · rw [← hv'release, ← hrelease]
    exact (hids.releases u hu v' hv' (hid.trans (hsame.symm.trans hv'id.symm))).symm
  · exact (hids.created _ hp.exe r' hr' hsame.symm).symm

section Repeated

variable {k : Int64 → ℕ} (hk : ∀ e, 1 ≤ k e)
  (hrepeat : (us'.map Upload.batch).Perm
    (us.flatMap fun u ↦ List.replicate (k (u.executableId env)) u.batch))

include hrepeat

include hk

end Repeated

theorem FramesDistinct.rows (hframes : FramesDistinct env us) {u v : Upload} (hu : u ∈ us)
    (hv : v ∈ us) {d e : StackNodeData} (hd : d ∈ u.frameRows env) (he : e ∈ v.frameRows env)
    (hid : d.id = e.id) : d = e := by
  rw [Upload.frameRows_eq] at hd he
  obtain ⟨f, hf, rfl⟩ := List.mem_map.mp hd
  obtain ⟨g, hg, rfl⟩ := List.mem_map.mp he
  rw [hframes f (List.mem_flatMap.mpr ⟨u, hu, hf⟩) g (List.mem_flatMap.mpr ⟨v, hv, hg⟩) hid]

end Sto
