import Sto.Client
import Mathlib.Data.List.Infix
import Mathlib.Data.List.ReduceOption

namespace Sto

/-- A sample as the ring buffer callback sends it on. Of the event only the user stack
is looked at. -/
structure StackInfo where
  ustack : List UInt64
  args : Args

variable (env : Externals)

def symbolize (stackInfo : StackInfo) : List (List SymbolizedResult) :=
  env.blazesym stackInfo.args.pid stackInfo.ustack

/-- The receiving thread of `process`: its buffer, and the batches for which it has
started a sink thread, in order. -/
structure Collector where
  buf : List (List (List SymbolizedResult))
  sunk : List (List (List (List SymbolizedResult)))

namespace Collector

def start : Collector := ⟨[], []⟩

/-- One turn of the loop. `rx.recv()` yields a chunk or an error. -/
def recv (c : Collector) : Option StackInfo → Collector
  | some dataChunk =>
    if c.buf.length < 200 then { c with buf := c.buf ++ [symbolize env dataChunk] }
    -- the chunk that finds the buffer full goes neither into it nor into the batch
    else { buf := [], sunk := c.sunk ++ [c.buf] }
  | none => c

def collect (events : List (Option StackInfo)) : Collector := events.foldl (recv env) start

def kept (c : Collector) : List (List (List SymbolizedResult)) := c.sunk.flatten ++ c.buf

def chunks (events : List (Option StackInfo)) : List StackInfo := events.reduceOption

/-- A list without its elements at the positions 200, 401, 602, … -/
def survivors {α : Type} (l : List α) : List α :=
  (l.zipIdx.filter fun p ↦ p.2 % 201 ≠ 200).map Prod.fst

theorem survivors_concat {α : Type} (l : List α) (a : α) :
    survivors (l ++ [a]) = survivors l ++ if l.length % 201 = 200 then [] else [a] := by
  unfold survivors
  rw [List.zipIdx_append, List.filter_append, List.map_append]
  by_cases h : l.length % 201 = 200 <;> simp [h]

theorem survivors_length_le {α : Type} (l : List α) : (survivors l).length ≤ l.length := by
  rw [survivors, List.length_map, ← List.length_zipIdx (l := l) (i := 0)]
  exact List.length_filter_le _ _

theorem survivors_of_short {α : Type} {l : List α} (h : l.length ≤ 200) : survivors l = l := by
  induction l using List.reverseRecOn with
  | nil => rfl
  | append_singleton l a ih =>
    rw [List.length_append, List.length_singleton] at h
    rw [survivors_concat, ih (by omega), if_neg (by omega)]

theorem survivors_lt {α : Type} {l : List α} (h : 200 < l.length) :
    (survivors l).length < l.length := by
  induction l using List.reverseRecOn with
  | nil => simp at h
  | append_singleton l a ih =>
    rw [List.length_append, List.length_singleton] at h ⊢
    rw [survivors_concat, List.length_append]
    have hle := survivors_length_le l
    by_cases hl : 200 < l.length
    · have hlt := ih hl
      split <;> simp <;> omega
    · have he : l.length = 200 := by omega
      simp only [he, Nat.reduceMod, ↓reduceIte, List.length_nil]
      omega

theorem collect_concat (events : List (Option StackInfo)) (e : Option StackInfo) :
    collect env (events ++ [e]) = recv env (collect env events) e := by
  simp [collect]

theorem chunks_concat (events : List (Option StackInfo)) (e : Option StackInfo) :
    chunks (events ++ [e]) = chunks events ++ e.toList := by
  rw [chunks, List.reduceOption_append, List.reduceOption_singleton, chunks]

/-- The loop loses exactly every 201st chunk. Its buffer holds as many chunks as have
come since the last loss. -/
theorem collect_kept (events : List (Option StackInfo)) :
    (collect env events).buf.length = (chunks events).length % 201 ∧
      (collect env events).kept = survivors ((chunks events).map (symbolize env)) := by
  induction events using List.reverseRecOn with
  | nil => exact ⟨rfl, rfl⟩
  | append_singleton events e ih =>
    obtain ⟨hlen, hkept⟩ := ih
    rw [collect_concat, chunks_concat]
    cases e with
    | none => simpa [recv] using ⟨hlen, hkept⟩
    | some dataChunk =>
      rw [Option.toList_some, List.map_append, List.map_singleton, survivors_concat, List.length_map,
        ← hkept, List.length_append, List.length_singleton]
      by_cases h : (collect env events).buf.length < 200
      · simp only [recv, if_pos h]
        refine ⟨?_, ?_⟩
        · rw [List.length_append, List.length_singleton]
          omega
        · rw [if_neg (by omega)]
          simp [kept]
      · simp only [recv, if_neg h]
        refine ⟨?_, ?_⟩
        · rw [List.length_nil]
          omega
        · rw [if_pos (by omega)]
          simp [kept]

/-- Samples are neither lost nor duplicated at any point of a run exactly as long as
no more than 200 chunks come in. -/
theorem keeps_every_chunk_iff (events : List (Option StackInfo)) :
    (∀ sofar, sofar <+: events →
      (collect env sofar).sunk.flatten ++ (collect env sofar).buf =
        (chunks sofar).map (symbolize env)) ↔
    (chunks events).length ≤ 200 := by
  constructor
  · intro h
    by_contra hlen
    have hkept := (collect_kept env events).2
    have hlt := survivors_lt (l := (chunks events).map (symbolize env)) (by simpa using hlen)
    rw [← hkept, kept, h events List.prefix_rfl] at hlt
    omega
  · intro hlen sofar hx
    obtain ⟨rest, rfl⟩ := hx
    have hsofar : (chunks sofar).length ≤ 200 := by
      rw [chunks, List.reduceOption_append, List.length_append] at hlen
      exact (Nat.le_add_right _ _).trans hlen
    have hkept := (collect_kept env sofar).2
    rwa [survivors_of_short (by simpa using hsofar)] at hkept

theorem loses_the_201st_chunk :
    let args : Args := ⟨1, .cycles, "demo", none⟩
    let env : Externals := ⟨fun _ ↦ 0, id, fun _ ↦ 0, fun _ ↦ 0, fun _ _ ↦ [[]]⟩
    let events : List (Option StackInfo) := List.replicate 201 (some ⟨[], args⟩)
    (collect env events).sunk.flatten ++ (collect env events).buf ≠
      (chunks events).map (symbolize env) := by
  intro args env events h
  have hlen := congrArg List.length h
  revert hlen
  decide +kernel

end Collector

end Sto
