import Sto.NodeIds

namespace Sto

open Library

variable {env : Externals} {us : List Upload} {u : Upload}

def StackNodeData.frame (d : StackNodeData) : Frame := ⟨d.symbol, d.file, d.lineNumber⟩

/-- The symbol and the file as the hasher gets them, one right after the other. -/
def Frame.text (f : Frame) : String := f.symbol ++ f.file.getD ""

/-- The hasher cannot tell the two frames apart: both spell the same text and have the same
line, or the text of one goes on with four bytes that are the line of the other. -/
def Frame.RunsTogether (f g : Frame) : Prop :=
  match f.lineNumber, g.lineNumber with
  | some l, none => utf8 g.text = utf8 f.text ++ toBeBytes32 l
  | none, some l => utf8 f.text = utf8 g.text ++ toBeBytes32 l
  | l, m => f.text = g.text ∧ l = m

theorem dataBytes_eq_iff {a b : StackNodeData} :
    dataBytes a = dataBytes b ↔ a.frame.RunsTogether b.frame := by
  have ha : dataBytes a = utf8 a.frame.text ++ lineBytes a.frame.lineNumber := dataBytes_eq a
  have hb : dataBytes b = utf8 b.frame.text ++ lineBytes b.frame.lineNumber := dataBytes_eq b
  rw [ha, hb, Frame.RunsTogether]
  cases a.frame.lineNumber with
  | none =>
    cases b.frame.lineNumber with
    | none => simp [lineBytes, utf8_inj]
    | some m => simp [lineBytes]
  | some l =>
    cases b.frame.lineNumber with
    | none => simpa [lineBytes] using eq_comm
    | some m =>
      constructor
      · intro h
        obtain ⟨htext, hline⟩ := List.append_inj' h (by simp [lineBytes])
        exact ⟨utf8_inj.mp htext, congrArg some (toBeBytes32_inj.mp hline)⟩
      · intro hx
        obtain ⟨htext, hline⟩ := hx
        rw [htext, hline]

def dataStrings (env : Externals) (us : List Upload) : List (List UInt8) :=
  (us.flatMap (Upload.frameRows env)).map dataBytes

theorem dataRow_mem {f : Frame} (h : f ∈ us.flatMap fun u ↦ (u.paths env).flatten) :
    dataRow env f ∈ us.flatMap (Upload.frameRows env) := by
  obtain ⟨u, hu, hf⟩ := List.mem_flatMap.mp h
  refine List.mem_flatMap.mpr ⟨u, hu, ?_⟩
  rw [Upload.frameRows_eq]
  exact List.mem_map_of_mem hf

theorem CollisionFree.dataIds (h : CollisionFree env (dataStrings env us)) {f g : Frame}
    (hf : f ∈ us.flatMap fun u ↦ (u.paths env).flatten)
    (hg : g ∈ us.flatMap fun u ↦ (u.paths env).flatten) :
    (dataRow env f).id = (dataRow env g).id ↔ f.RunsTogether g := by
  have hbytes : dataBytes (dataRow env f) = dataBytes (dataRow env g) ↔ f.RunsTogether g :=
    dataBytes_eq_iff
  rw [← hbytes]
  constructor
  · intro hid
    exact h _ (List.mem_map_of_mem (dataRow_mem hf)) _ (List.mem_map_of_mem (dataRow_mem hg)) hid
  · intro hb
    exact congrArg (finalizeId env) hb

/-- The rows of the payload describe all frames of the batch, and the node of every frame
refers to the row that describes it. -/
structure Upload.KeepsFrames (env : Externals) (u : Upload) : Prop where
  described : ∀ f ∈ (u.paths env).flatten, ∃ d ∈ (u.payload env).stackNodeDatas, d.frame = f
  referred : ∀ p f, u.BeginsWith env (p ++ [f]) → ∃ n ∈ (u.payload env).stackNodes,
    some n.id = pathId env (u.executableId env) none (p ++ [f]) ∧
      ∃ d ∈ (u.payload env).stackNodeDatas, d.id = n.stackNodeDataId ∧ d.frame = f

theorem payload_data_row {d : StackNodeData} (h : d ∈ (u.payload env).stackNodeDatas) :
    d = dataRow env d.frame := frameRows_payload u d h

theorem exists_data_row {f : Frame} (h : f ∈ (u.paths env).flatten) :
    ∃ d ∈ (u.payload env).stackNodeDatas, d.id = (dataRow env f).id ∧
      d.frame ∈ (u.paths env).flatten := by
  have hrow : dataRow env f ∈ u.frameRows env := by
    rw [Upload.frameRows_eq]
    exact List.mem_map_of_mem h
  obtain ⟨d, hd, hid⟩ := List.mem_map.mp (Upload.mem_payload_data_ids.mpr ⟨_, hrow, rfl⟩)
  refine ⟨d, hd, hid, ?_⟩
  have hsource := payload_data_source hd
  rw [Upload.frameRows_eq] at hsource
  obtain ⟨g, hg, rfl⟩ := List.mem_map.mp hsource
  exact hg

/-- Frames are kept apart exactly as long as no two of them run together. -/
theorem frames_are_kept_iff (u : Upload) (hdatas : CollisionFree env (dataStrings env [u]))
    (hnodes : CollisionFree env (nodeStrings env [u])) :
    (∀ a b : StackNodeData, a.frame ≠ b.frame →
      (dataBytes a ≠ dataBytes b ↔ ¬ a.frame.RunsTogether b.frame)) ∧
    (u.KeepsFrames env ↔ ∀ f ∈ (u.paths env).flatten, ∀ g ∈ (u.paths env).flatten, f ≠ g →
      ¬ f.RunsTogether g) := by
  have hmem : ∀ {f : Frame}, f ∈ (u.paths env).flatten →
      f ∈ [u].flatMap fun u ↦ (u.paths env).flatten := by
    intro f hf
    rwa [List.flatMap_singleton]
  refine ⟨fun a b _ ↦ not_congr dataBytes_eq_iff, ?_⟩
  constructor
  · intro h f hf g hg hne hrun
    obtain ⟨d, hd, rfl⟩ := h.described f hf
    obtain ⟨d', hd', rfl⟩ := h.described g hg
    have hid : d.id = d'.id := by
      rw [payload_data_row hd, payload_data_row hd']
      exact (hdatas.dataIds (hmem hf) (hmem hg)).mpr hrun
    exact hne (congrArg StackNodeData.frame (List.inj_on_of_nodup_map u.datas_nodup hd hd' hid))
  · intro hapart
    have hrow : ∀ f ∈ (u.paths env).flatten, ∃ d ∈ (u.payload env).stackNodeDatas,
        d.id = (dataRow env f).id ∧ d.frame = f := by
      intro f hf
      obtain ⟨d, hd, hid, hsource⟩ := exists_data_row hf
      refine ⟨d, hd, hid, ?_⟩
      by_contra hne
      rw [payload_data_row hd] at hid
      exact hapart _ hsource f hf hne ((hdatas.dataIds (hmem hsource) (hmem hf)).mp hid)
    refine ⟨fun f hf ↦ ?_, fun p f hp ↦ ?_⟩
    · obtain ⟨d, hd, _, hdf⟩ := hrow f hf
      exact ⟨d, hd, hdf⟩
    · have ho := hp.node_mem (List.mem_singleton_self u)
      have ho' := ho
      rw [List.flatMap_singleton] at ho'
      obtain ⟨n, hn, hid⟩ := List.mem_map.mp (Upload.mem_payload_node_ids.mpr ⟨_, ho', rfl⟩)
      obtain ⟨o, hocc, hoid, _, hdata, _⟩ := Upload.payload_node_source hn
      rw [← List.flatMap_singleton (f := Upload.occurrences env)] at hocc
      obtain ⟨d, hd, hdid, hdf⟩ := hrow f (hp.frame_mem (by simp))
      refine ⟨n, hn, ?_, d, hd, ?_, hdf⟩
      · rw [pathId_concat, hid]
      · rw [← hdata, (hnodes.nodeIds o hocc _ ho (hoid.trans hid)).2.1, hdid]
        rfl

def loginUpload : Upload :=
  { demoUpload with symlists := [[[⟨"log", "in.c", 9⟩]], [[⟨"login", ".c", 9⟩]]] }

theorem merges_log_and_login :
    CollisionFree demoExternals (dataStrings demoExternals [loginUpload]) ∧
      CollisionFree demoExternals (nodeStrings demoExternals [loginUpload]) ∧
      (let a : StackNodeData := ⟨0, "log", some "in.c", some 9⟩
        let b : StackNodeData := ⟨0, "login", some ".c", some 9⟩
        a.frame ≠ b.frame ∧ dataBytes a = dataBytes b) ∧
      ¬ loginUpload.KeepsFrames demoExternals := by
  refine ⟨?_, ?_, ?_, fun h ↦ ?_⟩
  · decide +kernel
  · decide +kernel
  · decide +kernel
  · have hlost : ∀ d ∈ (loginUpload.payload demoExternals).stackNodeDatas,
        d.frame ≠ ⟨"login", some ".c", some 9⟩ := by
      decide +kernel
    obtain ⟨d, hd, hdf⟩ := h.described ⟨"login", some ".c", some 9⟩ (by decide +kernel)
    exact hlost d hd hdf

theorem frames_are_kept_iff_demo : (demoCall .asIs).KeepsFrames demoExternals := by
  have hdatas : CollisionFree demoExternals (dataStrings demoExternals [demoCall .asIs]) := by
    decide +kernel
  have hnodes : CollisionFree demoExternals (nodeStrings demoExternals [demoCall .asIs]) := by
    decide +kernel
  refine ((frames_are_kept_iff (demoCall .asIs) hdatas hnodes).2).mpr ?_
  have hapart : ∀ f ∈ ((demoCall .asIs).paths demoExternals).flatten,
      ∀ g ∈ ((demoCall .asIs).paths demoExternals).flatten, f ≠ g →
        (dataRow demoExternals f).id ≠ (dataRow demoExternals g).id := by
    decide +kernel
  intro f hf g hg hne hrun
  refine hapart f hf g hg hne ((hdatas.dataIds ?_ ?_).mpr hrun) <;> rwa [List.flatMap_singleton]

end Sto
