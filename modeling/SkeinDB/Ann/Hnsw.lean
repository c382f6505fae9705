import Mathlib.Data.List.Nodup
import Mathlib.Data.List.Sort
import Mathlib.Logic.Relation
import Mathlib.Order.WithBot
import Mathlib.Tactic

/-!
# The navigable graph of a vector column

`skeindb/src/engine.rs`: the index keeps the vectors as nodes of a graph with layers. A search goes
down the layers greedily and spreads out on layer 0; an insertion searches the neighbours of the
new node in the same way and links it with them in both directions. The distance is any function
into a linear order, and the layer of a node any function of its seed.
-/
namespace SkeinDB.Ann

structure HnswNode where
  rowIdx : ℕ
  neighbors : List (List ℕ)
  deriving DecidableEq, Repr

structure HnswIndex where
  nodes : List HnswNode
  entryPoint : Option ℕ
  maxLayer : ℕ
  count : ℕ
  deriving DecidableEq, Repr

namespace HnswIndex

section Definitions

def new : HnswIndex := ⟨[], none, 0, 0⟩

def m : ℕ := 16

def mMax0 : ℕ := 32

def efConstruction : ℕ := 64

def maxConn (layer : ℕ) : ℕ := if layer = 0 then mMax0 else m

/-- The neighbours of a node on a layer, if it has them there. -/
def neighborsAt (idx : HnswIndex) (nodeIdx layer : ℕ) : Option (List ℕ) :=
  idx.nodes[nodeIdx]?.bind fun node => node.neighbors[layer]?

def setNeighbors (idx : HnswIndex) (nodeIdx layer : ℕ) (ns : List ℕ) : HnswIndex :=
  { idx with nodes := idx.nodes.modify nodeIdx fun node =>
      { node with neighbors := node.neighbors.set layer ns } }

variable {V D : Type} [LinearOrder D] (dist : V → V → D) (allVectors : ℕ → V)
variable (idx : HnswIndex) (query : V)

def distance (nodeIdx : ℕ) : Option D :=
  idx.nodes[nodeIdx]?.map fun node => dist (allVectors node.rowIdx) query

/-- The node, its distance, and whether the round has found it. -/
def greedyStep (s : ℕ × D × Bool) (n : ℕ) : ℕ × D × Bool :=
  match idx.distance dist allVectors query n with
  | none => s
  | some d => if d < s.2.1 then (n, d, true) else s

def greedyLoop (layer : ℕ) : (fuel current : ℕ) → (bestDist : D) → Option ℕ
  | 0, _, _ => none
  | fuel + 1, current, bestDist => do
    let node ← idx.nodes[current]?
    match node.neighbors[layer]? with
    | none => some current
    | some neighbors =>
      let s := neighbors.foldl (idx.greedyStep dist allVectors query) (current, bestDist, false)
      if s.2.2 then greedyLoop layer fuel s.1 s.2.1 else some s.1

def greedyClosest (start layer : ℕ) : Option ℕ := do
  let bestDist ← idx.distance dist allVectors query start
  idx.greedyLoop dist allVectors query layer (idx.nodes.length + 1) start bestDist

/-- The state of a search within a layer. -/
structure Beam (D : Type) where
  visited : List ℕ
  candidates : List (ℕ × D)
  results : List (ℕ × D)

def sortByDistance (l : List (ℕ × D)) : List (ℕ × D) := l.insertionSort fun a b => a.2 ≤ b.2

/-- The first one of the nearest candidates, and the others. -/
def popNearest : List (ℕ × D) → Option ((ℕ × D) × List (ℕ × D))
  | [] => none
  | c :: rest =>
    match popNearest rest with
    | none => some (c, rest)
    | some (b, others) => if b.2 < c.2 then some (b, c :: others) else some (c, rest)

def worst (results : List (ℕ × D)) : WithBot D :=
  (results.map Prod.snd).foldl (fun w d => max w d) ⊥

def visit (ef : ℕ) (s : Beam D) (n : ℕ) : Beam D :=
  match idx.distance dist allVectors query n with
  | none => s
  | some d =>
    if n ∈ s.visited then s
    else if d < worst s.results ∨ s.results.length < ef then
      ⟨n :: s.visited, s.candidates ++ [(n, d)], (sortByDistance (s.results ++ [(n, d)])).take ef⟩
    else { s with visited := n :: s.visited }

def searchLoop (ef layer : ℕ) : (fuel : ℕ) → Beam D → Option (List (ℕ × D))
  | 0, _ => none
  | fuel + 1, s =>
    match popNearest s.candidates with
    | none => some s.results
    | some (c, candidates) =>
      if worst s.results < c.2 ∧ ef ≤ s.results.length then some s.results
      else do
        let node ← idx.nodes[c.1]?
        match node.neighbors[layer]? with
        | none => searchLoop ef layer fuel { s with candidates }
        | some neighbors =>
          searchLoop ef layer fuel
            (neighbors.foldl (idx.visit dist allVectors query ef) { s with candidates })

def searchLayer (entry ef layer : ℕ) : Option (List (ℕ × D)) := do
  let d ← idx.distance dist allVectors query entry
  idx.searchLoop dist allVectors query ef layer (idx.nodes.length + 1)
    ⟨[entry], [(entry, d)], [(entry, d)]⟩

/-- The greedy descent through the layers `base + k`, …, `base + 1`. -/
def descend (base : ℕ) : (k current : ℕ) → Option ℕ
  | 0, current => some current
  | k + 1, current => do
    let current ← idx.greedyClosest dist allVectors query current (base + (k + 1))
    descend base k current

def search (k efSearch : ℕ) : Option (List (ℕ × D)) :=
  match idx.entryPoint with
  | none => some []
  | some ep => do
    let current ← idx.descend dist allVectors query 0 idx.maxLayer ep
    let results ← idx.searchLayer dist allVectors query current (max efSearch k) 0
    some (results.take k)

def pruneNeighbors (nodeIdx layer maxConn : ℕ) : HnswIndex :=
  match idx.nodes[nodeIdx]? with
  | none => idx
  | some node =>
    match node.neighbors[layer]? with
    | none => idx
    | some neighbors =>
      let scored := neighbors.filterMap fun n =>
        (idx.distance dist allVectors (allVectors node.rowIdx) n).map (n, ·)
      idx.setNeighbors nodeIdx layer (((sortByDistance scored).take maxConn).map Prod.fst)

/-- An edge from a selected neighbour to the node that is inserted. -/
def link (nodeIdx layer : ℕ) (idx : HnswIndex) (neighborIdx : ℕ) : HnswIndex :=
  match idx.neighborsAt neighborIdx layer with
  | none => idx
  | some neighbors =>
    let idx := idx.setNeighbors neighborIdx layer (neighbors ++ [nodeIdx])
    if maxConn layer < (neighbors ++ [nodeIdx]).length then
      idx.pruneNeighbors dist allVectors neighborIdx layer (maxConn layer)
    else idx

/-- An insertion under way: the index, the new node and where the search stands. -/
structure Insertion where
  idx : HnswIndex
  node : HnswNode
  current : ℕ

def insertAt (vector : V) (layer : ℕ) (s : Insertion) : Option Insertion := do
  let neighbors ← s.idx.searchLayer dist allVectors vector s.current efConstruction layer
  let selected := (neighbors.take (maxConn layer)).map Prod.fst
  some {
    idx := selected.foldl (link dist allVectors s.idx.nodes.length layer) s.idx
    node := { s.node with neighbors := s.node.neighbors.set layer selected }
    current := (neighbors.head?.map Prod.fst).getD s.current }

/-- The layers below `n`, from the upper one to layer 0. -/
def insertLayers (vector : V) : (n : ℕ) → Insertion → Option Insertion
  | 0, s => some s
  | layer + 1, s => do
    let s ← insertAt dist allVectors vector layer s
    insertLayers vector layer s

variable (randomLayer : ℕ → ℕ)

def layerOf (rowIdx : ℕ) : ℕ :=
  randomLayer ((rowIdx * 0x9e3779b97f4a7c15 + idx.count) % 2 ^ 64)

def insert (rowIdx : ℕ) (vector : V) : Option HnswIndex :=
  let level := idx.layerOf randomLayer rowIdx
  let node : HnswNode := ⟨rowIdx, .replicate (level + 1) []⟩
  match idx.entryPoint with
  | none => some ⟨idx.nodes ++ [node], some idx.nodes.length, level, idx.count + 1⟩
  | some ep => do
    let current ← idx.descend dist allVectors vector level (idx.maxLayer - level) ep
    let s ← insertLayers dist allVectors vector (min level idx.maxLayer + 1) ⟨idx, node, current⟩
    some {
      nodes := s.idx.nodes ++ [s.node]
      entryPoint := if idx.maxLayer < level then some idx.nodes.length else idx.entryPoint
      maxLayer := max idx.maxLayer level
      count := idx.count + 1 }

/-- The index after a sequence of insertions. -/
def insertAll (idx : HnswIndex) (rows : List (ℕ × V)) : Option HnswIndex :=
  rows.foldlM (fun idx row => idx.insert dist allVectors randomLayer row.1 row.2) idx

end Definitions

section Sorting
variable {D : Type} [LinearOrder D] {l rest : List (ℕ × D)} {c : ℕ × D}

theorem popNearest_eq_none : popNearest l = none ↔ l = [] := by
  cases l with
  | nil => exact ⟨fun _ => rfl, fun _ => rfl⟩
  | cons c l =>
    rw [popNearest]
    split
    · simp
    · split_ifs <;> simp

theorem popNearest_perm (h : popNearest l = some (c, rest)) : l.Perm (c :: rest) := by
  induction l generalizing c rest with
  | nil => cases h
  | cons a l ih =>
    rw [popNearest] at h
    split at h
    · cases h
      exact .refl _
    · next b others hpop =>
      split_ifs at h
      · cases h
        exact ((ih hpop).cons a).trans (.swap _ a others)
      · cases h
        exact .refl _

theorem sortByDistance_perm (l : List (ℕ × D)) : (sortByDistance l).Perm l :=
  List.perm_insertionSort _ l

theorem sortByDistance_sorted (l : List (ℕ × D)) :
    (sortByDistance l).Pairwise fun a b => a.2 ≤ b.2 := by
  have : Std.Total fun a b : ℕ × D => a.2 ≤ b.2 := ⟨fun a b => le_total a.2 b.2⟩
  have : IsTrans (ℕ × D) fun a b => a.2 ≤ b.2 := ⟨fun _ _ _ => le_trans⟩
  exact List.pairwise_insertionSort _ l

theorem le_foldl_max (ds : List D) (w : WithBot D) :
    w ≤ ds.foldl (fun w d => max w d) w ∧
      ∀ d ∈ ds, (d : WithBot D) ≤ ds.foldl (fun w d => max w d) w := by
  induction ds generalizing w with
  | nil => simp
  | cons a ds ih =>
    obtain ⟨hw, hds⟩ := ih (max w a)
    refine ⟨(le_max_left _ _).trans hw, fun d hd => ?_⟩
    rcases List.mem_cons.mp hd with rfl | hd
    · exact (le_max_right _ _).trans hw
    · exact hds d hd

theorem le_worst (h : c ∈ l) : (c.2 : WithBot D) ≤ worst l :=
  (le_foldl_max _ ⊥).2 _ (List.mem_map_of_mem h)

end Sorting

section Searching
variable {V D : Type} [LinearOrder D] {dist : V → V → D} {allVectors : ℕ → V}
variable {idx : HnswIndex} {query : V} {layer ef : ℕ}

omit [LinearOrder D] in
theorem distance_eq_none {n : ℕ} :
    idx.distance dist allVectors query n = none ↔ idx.nodes.length ≤ n := by
  simp [distance]

omit [LinearOrder D] in
variable (dist allVectors query) in
theorem exists_distance {n : ℕ} (hn : n < idx.nodes.length) :
    ∃ d, idx.distance dist allVectors query n = some d :=
  Option.ne_none_iff_exists'.mp fun h => absurd (distance_eq_none.mp h) (Nat.not_le.mpr hn)

omit [LinearOrder D] in
theorem lt_of_distance {n : ℕ} {d : D} (h : idx.distance dist allVectors query n = some d) :
    n < idx.nodes.length :=
  Nat.lt_of_not_le fun hle => by rw [distance_eq_none.mpr hle] at h; cases h

variable (idx) in
/-- The number of distinct nodes is bounded by the number of nodes. -/
theorem length_le_nodes {l : List ℕ} (hnodup : l.Nodup) (hlt : ∀ n ∈ l, n < idx.nodes.length) :
    l.length ≤ idx.nodes.length := by
  have hsub : l ⊆ List.range idx.nodes.length := fun n hn => List.mem_range.mpr (hlt n hn)
  simpa using (List.subperm_of_subset hnodup hsub).length_le

/-- What every search within a layer keeps. -/
structure Beam.Sound (dist : V → V → D) (allVectors : ℕ → V) (idx : HnswIndex) (query : V)
    (s : Beam D) : Prop where
  visited_nodup : s.visited.Nodup
  visited_lt : ∀ v ∈ s.visited, v < idx.nodes.length
  candidates : ∀ c ∈ s.candidates, idx.distance dist allVectors query c.1 = some c.2
  results : ∀ r ∈ s.results,
    r.1 ∈ s.visited ∧ idx.distance dist allVectors query r.1 = some r.2
  results_nodup : (s.results.map Prod.fst).Nodup

/-- How many candidates may still come. -/
def Beam.left (idx : HnswIndex) (s : Beam D) : ℕ :=
  s.candidates.length + (idx.nodes.length - s.visited.length)

variable (ef) in
theorem Beam.Sound.visit {s : Beam D} (h : s.Sound dist allVectors idx query) (n : ℕ) :
    (idx.visit dist allVectors query ef s n).Sound dist allVectors idx query ∧
      (idx.visit dist allVectors query ef s n).left idx ≤ s.left idx := by
  rw [HnswIndex.visit]
  split
  · exact ⟨h, le_rfl⟩
  · next d hd =>
    split_ifs with hseen hgood
    · exact ⟨h, le_rfl⟩
    · have hnodup := List.nodup_cons.mpr ⟨hseen, h.visited_nodup⟩
      have hlt : ∀ v ∈ n :: s.visited, v < idx.nodes.length :=
        List.forall_mem_cons.mpr ⟨lt_of_distance hd, h.visited_lt⟩
      have hperm := sortByDistance_perm (s.results ++ [(n, d)])
      refine ⟨⟨hnodup, hlt, ?_, fun r hr => ?_, ?_⟩, ?_⟩
      · simpa [or_imp, forall_and, hd] using h.candidates
      · have hr := hperm.mem_iff.mp (List.mem_of_mem_take hr)
        rcases List.mem_append.mp hr with hr | hr
        · exact ⟨List.mem_cons_of_mem _ (h.results r hr).1, (h.results r hr).2⟩
        · rw [List.mem_singleton.mp hr]
          exact ⟨List.mem_cons_self, hd⟩
      · refine ((List.take_sublist ef _).map Prod.fst).nodup ((hperm.map Prod.fst).nodup_iff.mpr ?_)
        rw [List.map_append, List.nodup_append']
        refine ⟨h.results_nodup, List.nodup_singleton n, ?_⟩
        rw [List.map_singleton, List.disjoint_singleton]
        intro hmem
        obtain ⟨r, hr, hrn⟩ := List.mem_map.mp hmem
        have hmem := (h.results r hr).1
        rw [hrn] at hmem
        exact hseen hmem
      · have hbound := length_le_nodes idx hnodup hlt
        simp only [Beam.left, List.length_append, List.length_cons, List.length_nil] at hbound ⊢
        omega
    · refine ⟨⟨List.nodup_cons.mpr ⟨hseen, h.visited_nodup⟩,
        List.forall_mem_cons.mpr ⟨lt_of_distance hd, h.visited_lt⟩, h.candidates, fun r hr =>
          ⟨List.mem_cons_of_mem _ (h.results r hr).1, (h.results r hr).2⟩, h.results_nodup⟩, ?_⟩
      simp only [Beam.left, List.length_cons]
      omega

variable (ef) in
theorem Beam.Sound.visits {s : Beam D} (h : s.Sound dist allVectors idx query) (ns : List ℕ) :
    (ns.foldl (idx.visit dist allVectors query ef) s).Sound dist allVectors idx query ∧
      (ns.foldl (idx.visit dist allVectors query ef) s).left idx ≤ s.left idx := by
  induction ns generalizing s with
  | nil => exact ⟨h, le_rfl⟩
  | cons n ns ih =>
    obtain ⟨hvisit, hleft⟩ := h.visit ef n
    exact ⟨(ih hvisit).1, (ih hvisit).2.trans hleft⟩

theorem Beam.Sound.pop {s : Beam D} (h : s.Sound dist allVectors idx query) {c : ℕ × D}
    {rest : List (ℕ × D)} (hpop : popNearest s.candidates = some (c, rest)) :
    idx.distance dist allVectors query c.1 = some c.2 ∧
      ({ s with candidates := rest } : Beam D).Sound dist allVectors idx query ∧
      ({ s with candidates := rest } : Beam D).left idx < s.left idx := by
  have hperm := popNearest_perm hpop
  have hall : ∀ a ∈ c :: rest, idx.distance dist allVectors query a.1 = some a.2 := fun a ha =>
    h.candidates a (hperm.mem_iff.mpr ha)
  refine ⟨hall c List.mem_cons_self, ⟨h.visited_nodup, h.visited_lt, fun a ha =>
    hall a (List.mem_cons_of_mem c ha), h.results, h.results_nodup⟩, ?_⟩
  simp only [Beam.left, hperm.length_eq, List.length_cons]
  omega

/-- What the result of a search within a layer consists of. -/
def Found (dist : V → V → D) (allVectors : ℕ → V) (idx : HnswIndex) (query : V)
    (results : List (ℕ × D)) : Prop :=
  (results.map Prod.fst).Nodup ∧
    ∀ r ∈ results, idx.distance dist allVectors query r.1 = some r.2

theorem searchLoop_found {fuel : ℕ} {s : Beam D} (h : s.Sound dist allVectors idx query)
    (hfuel : s.left idx < fuel) :
    ∃ results, idx.searchLoop dist allVectors query ef layer fuel s = some results ∧
      Found dist allVectors idx query results := by
  induction fuel generalizing s with
  | zero => cases hfuel
  | succ fuel ih =>
    rw [searchLoop]
    split
    · exact ⟨_, rfl, h.results_nodup, fun r hr => (h.results r hr).2⟩
    · next c rest hpop =>
      obtain ⟨hc, hsound, hless⟩ := h.pop hpop
      split_ifs
      · exact ⟨_, rfl, h.results_nodup, fun r hr => (h.results r hr).2⟩
      · obtain ⟨node, hnode, -⟩ := Option.map_eq_some_iff.mp hc
        rw [hnode, Option.bind_eq_bind, Option.bind_some]
        split
        · exact ih hsound (by omega)
        · next ns _ =>
          obtain ⟨hvisits, hleft⟩ := hsound.visits ef ns
          exact ih hvisits (by omega)

omit [LinearOrder D] in
theorem beam_start {entry : ℕ} {d : D}
    (hd : idx.distance dist allVectors query entry = some d) :
    Beam.Sound dist allVectors idx query ⟨[entry], [(entry, d)], [(entry, d)]⟩ ∧
      Beam.left idx (⟨[entry], [(entry, d)], [(entry, d)]⟩ : Beam D) < idx.nodes.length + 1 := by
  have hlt := lt_of_distance hd
  refine ⟨⟨List.nodup_singleton entry, by simpa using hlt, by simpa using hd, by simpa using hd,
    List.nodup_singleton entry⟩, ?_⟩
  simp only [Beam.left, List.length_singleton]
  omega

variable (dist allVectors query ef layer) in
/-- A search within a layer ends. -/
theorem searchLayer_found {entry : ℕ} (hentry : entry < idx.nodes.length) :
    ∃ results, idx.searchLayer dist allVectors query entry ef layer = some results ∧
      Found dist allVectors idx query results := by
  obtain ⟨d, hd⟩ := exists_distance dist allVectors query hentry
  rw [searchLayer, hd]
  exact searchLoop_found (beam_start hd).1 (beam_start hd).2

/-- What a search keeps whose beam is as wide as the index. -/
structure Beam.Full (dist : V → V → D) (allVectors : ℕ → V) (idx : HnswIndex) (query : V)
    (s : Beam D) : Prop extends Beam.Sound dist allVectors idx query s where
  kept : ∀ v ∈ s.visited, v ∈ s.results.map Prod.fst
  candidates_kept : ∀ c ∈ s.candidates, c ∈ s.results
  sorted : s.results.Pairwise fun a b => a.2 ≤ b.2

structure Beam.Grows (s t : Beam D) : Prop where
  visited : ∀ v ∈ s.visited, v ∈ t.visited
  candidates : ∀ c ∈ s.candidates, c ∈ t.candidates
  fresh : ∀ v ∈ t.visited, v ∈ s.visited ∨ v ∈ t.candidates.map Prod.fst

omit [LinearOrder D] in
theorem Beam.Grows.refl (s : Beam D) : s.Grows s := ⟨fun _ => id, fun _ => id, fun _ => .inl⟩

omit [LinearOrder D] in
theorem Beam.Grows.trans {s t u : Beam D} (h : s.Grows t) (h' : t.Grows u) : s.Grows u where
  visited v hv := h'.visited v (h.visited v hv)
  candidates c hc := h'.candidates c (h.candidates c hc)
  fresh v hv := by
    rcases h'.fresh v hv with ht | hu
    · refine (h.fresh v ht).imp_right fun hmem => ?_
      obtain ⟨c, hc, rfl⟩ := List.mem_map.mp hmem
      exact List.mem_map_of_mem (h'.candidates c hc)
    · exact .inr hu

theorem Beam.Full.visit {s : Beam D} (h : s.Full dist allVectors idx query)
    (hef : idx.nodes.length ≤ ef) (n : ℕ) :
    (idx.visit dist allVectors query ef s n).Full dist allVectors idx query ∧
      s.Grows (idx.visit dist allVectors query ef s n) ∧
      (n < idx.nodes.length → n ∈ (idx.visit dist allVectors query ef s n).visited) := by
  have hsound := (h.toSound.visit ef n).1
  rw [HnswIndex.visit] at hsound ⊢
  split at hsound <;> rename_i hd
  · exact ⟨h, .refl s, fun hn => absurd (distance_eq_none.mp hd) (Nat.not_le.mpr hn)⟩
  · rename_i d
    by_cases hseen : n ∈ s.visited
    · rw [if_pos hseen]
      exact ⟨h, .refl s, fun _ => hseen⟩
    · have hnodup := List.nodup_cons.mpr ⟨hseen, h.visited_nodup⟩
      have hbound := length_le_nodes idx hnodup
        (List.forall_mem_cons.mpr ⟨lt_of_distance hd, h.visited_lt⟩)
      have hresults : s.results.length < ef := by
        have hsub : s.results.map Prod.fst ⊆ s.visited := fun v hv => by
          obtain ⟨r, hr, rfl⟩ := List.mem_map.mp hv
          exact (h.results r hr).1
        have hle := (List.subperm_of_subset h.results_nodup hsub).length_le
        rw [List.length_map] at hle
        rw [List.length_cons] at hbound
        omega
      have hperm := sortByDistance_perm (s.results ++ [(n, d)])
      have htake : (sortByDistance (s.results ++ [(n, d)])).take ef =
          sortByDistance (s.results ++ [(n, d)]) := by
        refine List.take_of_length_le ?_
        rw [hperm.length_eq, List.length_append, List.length_singleton]
        exact hresults
      rw [if_neg hseen, if_pos (.inr hresults)] at hsound ⊢
      rw [htake] at hsound ⊢
      refine ⟨⟨hsound, fun v hv => ?_, fun c hc => ?_, sortByDistance_sorted _⟩,
        ⟨fun v hv => List.mem_cons_of_mem n hv, fun c hc => List.mem_append_left _ hc,
          fun v hv => ?_⟩, fun _ => List.mem_cons_self⟩
      · rw [(hperm.map Prod.fst).mem_iff, List.map_append, List.mem_append]
        rcases List.mem_cons.mp hv with rfl | hv
        · exact .inr List.mem_cons_self
        · exact .inl (h.kept v hv)
      · rw [hperm.mem_iff, List.mem_append]
        exact (List.mem_append.mp hc).imp_left (h.candidates_kept c)
      · rcases List.mem_cons.mp hv with rfl | hv
        · exact .inr (by simp)
        · exact .inl hv

theorem Beam.Full.visits {s : Beam D} (h : s.Full dist allVectors idx query)
    (hef : idx.nodes.length ≤ ef) (ns : List ℕ) :
    (ns.foldl (idx.visit dist allVectors query ef) s).Full dist allVectors idx query ∧
      s.Grows (ns.foldl (idx.visit dist allVectors query ef) s) ∧
      ∀ n ∈ ns, n < idx.nodes.length →
        n ∈ (ns.foldl (idx.visit dist allVectors query ef) s).visited := by
  induction ns generalizing s with
  | nil => exact ⟨h, .refl s, fun n hn => absurd hn List.not_mem_nil⟩
  | cons n ns ih =>
    obtain ⟨hfull, hgrows, hn⟩ := h.visit hef n
    obtain ⟨hfull', hgrows', hns⟩ := ih hfull
    refine ⟨hfull', hgrows.trans hgrows', fun a ha hlt => ?_⟩
    rcases List.mem_cons.mp ha with rfl | ha
    · exact hgrows'.visited a (hn hlt)
    · exact hns a ha hlt

/-- An edge of a layer. -/
def Edge (idx : HnswIndex) (layer i j : ℕ) : Prop :=
  ∃ ns, idx.neighborsAt i layer = some ns ∧ j ∈ ns ∧ j < idx.nodes.length

/-- The visited nodes whose edges are still to be followed are candidates. -/
def Beam.Closed (idx : HnswIndex) (layer : ℕ) (s : Beam D) : Prop :=
  ∀ v ∈ s.visited, v ∈ s.candidates.map Prod.fst ∨ ∀ j, Edge idx layer v j → j ∈ s.visited

variable (layer) in
theorem searchLoop_full (hef : idx.nodes.length ≤ ef) {fuel : ℕ} {s : Beam D}
    (h : s.Full dist allVectors idx query) (hclosed : s.Closed idx layer)
    (hfuel : s.left idx < fuel) :
    ∃ results, idx.searchLoop dist allVectors query ef layer fuel s = some results ∧
      Found dist allVectors idx query results ∧ (results.Pairwise fun a b => a.2 ≤ b.2) ∧
      (∀ v ∈ s.visited, v ∈ results.map Prod.fst) ∧
      ∀ v ∈ results.map Prod.fst, ∀ j, Edge idx layer v j → j ∈ results.map Prod.fst := by
  induction fuel generalizing s with
  | zero => cases hfuel
  | succ fuel ih =>
    rw [searchLoop]
    split
    · next hpop =>
      have hvisited : ∀ v ∈ s.results.map Prod.fst, v ∈ s.visited := fun v hv => by
        obtain ⟨r, hr, rfl⟩ := List.mem_map.mp hv
        exact (h.results r hr).1
      refine ⟨_, rfl, ⟨h.results_nodup, fun r hr => (h.results r hr).2⟩, h.sorted, h.kept,
        fun v hv j hedge => h.kept j ?_⟩
      rcases hclosed v (hvisited v hv) with hmem | hnext
      · rw [popNearest_eq_none.mp hpop] at hmem
        cases hmem
      · exact hnext j hedge
    · next c rest hpop =>
      have hperm := popNearest_perm hpop
      obtain ⟨hc, hsound, hless⟩ := h.toSound.pop hpop
      have hrest : ({ s with candidates := rest } : Beam D).Full dist allVectors idx query :=
        ⟨hsound, h.kept, fun a ha => h.candidates_kept a (hperm.mem_iff.mpr (.tail c ha)),
          h.sorted⟩
      have hworst : ¬ (worst s.results < c.2 ∧ ef ≤ s.results.length) := fun hbreak =>
        hbreak.1.not_ge (le_worst (h.candidates_kept c (hperm.mem_iff.mpr List.mem_cons_self)))
      have hcandidates : ∀ v, v ∈ s.candidates.map Prod.fst → v = c.1 ∨ v ∈ rest.map Prod.fst := by
        intro v hv
        simpa [(hperm.map Prod.fst).mem_iff] using hv
      obtain ⟨node, hnode, -⟩ := Option.map_eq_some_iff.mp hc
      rw [if_neg hworst, hnode, Option.bind_eq_bind, Option.bind_some]
      split
      · next hnone =>
        refine ih hrest (fun v hv => ?_) (by omega)
        rcases hclosed v hv with hmem | hnext
        · rcases hcandidates v hmem with rfl | hmem
          · refine .inr fun j ⟨ns, hns, _⟩ => ?_
            rw [neighborsAt, hnode, Option.bind_some, hnone] at hns
            cases hns
          · exact .inl hmem
        · exact .inr hnext
      · next ns hns =>
        obtain ⟨hfull, hgrows, hnext⟩ := hrest.visits hef ns
        have hleft := (hsound.visits ef ns).2
        have hclosed' : Beam.Closed idx layer
            (ns.foldl (idx.visit dist allVectors query ef) { s with candidates := rest }) := by
          intro v hv
          rcases hgrows.fresh v hv with hold | hnew
          · rcases hclosed v hold with hmem | hedges
            · rcases hcandidates v hmem with rfl | hmem
              · refine .inr fun j ⟨ns', hns', hj, hlt⟩ => hnext j ?_ hlt
                rw [neighborsAt, hnode, Option.bind_some, hns] at hns'
                rwa [Option.some.inj hns']
              · obtain ⟨a, ha, rfl⟩ := List.mem_map.mp hmem
                exact .inl (List.mem_map_of_mem (hgrows.candidates a ha))
            · exact .inr fun j hedge => hgrows.visited j (hedges j hedge)
          · exact .inl hnew
        obtain ⟨results, hresults, hfound, hsorted, hmem, hend⟩ :=
          ih hfull hclosed' (by omega)
        exact ⟨results, hresults, hfound, hsorted, fun v hv => hmem v (hgrows.visited v hv), hend⟩

variable (dist allVectors query layer) in
/-- With a beam as wide as the index, a search within a layer finds all that the entry reaches. -/
theorem searchLayer_full (hef : idx.nodes.length ≤ ef) {entry : ℕ}
    (hentry : entry < idx.nodes.length) :
    ∃ results, idx.searchLayer dist allVectors query entry ef layer = some results ∧
      Found dist allVectors idx query results ∧ (results.Pairwise fun a b => a.2 ≤ b.2) ∧
      ∀ v, Relation.ReflTransGen (Edge idx layer) entry v → v ∈ results.map Prod.fst := by
  obtain ⟨d, hd⟩ := exists_distance dist allVectors query hentry
  rw [searchLayer, hd]
  obtain ⟨results, hresults, hfound, hsorted, hmem, hend⟩ := searchLoop_full layer hef
    ⟨(beam_start hd).1, by simp, by simp, List.pairwise_singleton _ _⟩
    (fun v hv => .inl (by simpa using hv)) (beam_start hd).2
  refine ⟨results, hresults, hfound, hsorted, fun v hreach => ?_⟩
  induction hreach with
  | refl => exact hmem entry List.mem_cons_self
  | tail _ hedge ih => exact hend _ ih _ hedge

theorem greedyStep_fold (ns : List ℕ) {s : ℕ × D × Bool} (current : ℕ) (best : D)
    (hs : idx.distance dist allVectors query s.1 = some s.2.1)
    (hfound : (s.2.2 = true → s.2.1 < best) ∧ (s.2.2 = false → s = (current, best, false))) :
    let t := ns.foldl (idx.greedyStep dist allVectors query) s
    idx.distance dist allVectors query t.1 = some t.2.1 ∧
      (t.2.2 = true → t.2.1 < best) ∧ (t.2.2 = false → t = (current, best, false)) := by
  induction ns generalizing s with
  | nil => exact ⟨hs, hfound⟩
  | cons n ns ih =>
    rw [List.foldl_cons, greedyStep]
    split
    · exact ih hs hfound
    · next d hd =>
      split_ifs with hlt
      · refine ih hd ⟨fun _ => ?_, fun h => absurd h (by simp)⟩
        rcases hfresh : s.2.2 with _ | _
        · rw [hfound.2 hfresh] at hlt
          exact hlt
        · exact hlt.trans (hfound.1 hfresh)
      · exact ih hs hfound

/-- The nodes that are nearer than a distance. -/
def nearer (dist : V → V → D) (allVectors : ℕ → V) (idx : HnswIndex) (query : V) (best : D) :
    List ℕ :=
  (List.range idx.nodes.length).filter fun n =>
    (idx.distance dist allVectors query n).any fun d => d < best

theorem nearer_lt {n : ℕ} {d best : D} (hd : idx.distance dist allVectors query n = some d)
    (hlt : d < best) : (idx.nearer dist allVectors query d).length <
      (idx.nearer dist allVectors query best).length := by
  have hsub : (idx.nearer dist allVectors query d).Sublist
      (idx.nearer dist allVectors query best) :=
    List.monotone_filter_right _ fun a ha => by
      obtain ⟨e, he, hed⟩ := (Option.any_eq_true _ _).mp ha
      exact (Option.any_eq_true _ _).mpr
        ⟨e, he, decide_eq_true ((of_decide_eq_true hed).trans hlt)⟩
  refine Nat.lt_of_le_of_ne hsub.length_le fun heq => ?_
  have hmem : n ∈ idx.nearer dist allVectors query best :=
    List.mem_filter.mpr ⟨List.mem_range.mpr (lt_of_distance hd), by simp [hd, hlt]⟩
  rw [← hsub.eq_of_length heq] at hmem
  have hself := (List.mem_filter.mp hmem).2
  simp [hd] at hself

theorem greedyLoop_ends {fuel current : ℕ} {best : D}
    (hcurrent : idx.distance dist allVectors query current = some best)
    (hfuel : (idx.nearer dist allVectors query best).length < fuel) :
    ∃ c < idx.nodes.length,
      idx.greedyLoop dist allVectors query layer fuel current best = some c := by
  induction fuel generalizing current best with
  | zero => cases hfuel
  | succ fuel ih =>
    obtain ⟨node, hnode, -⟩ := Option.map_eq_some_iff.mp hcurrent
    rw [greedyLoop, hnode, Option.bind_eq_bind, Option.bind_some]
    split
    · exact ⟨current, lt_of_distance hcurrent, rfl⟩
    · next ns _ =>
      obtain ⟨hdist, himproved, -⟩ := greedyStep_fold ns (s := (current, best, false))
        current best hcurrent ⟨fun h => by simp at h, fun _ => rfl⟩
      dsimp only
      split_ifs with himp
      · have hless := nearer_lt hdist (himproved himp)
        exact ih hdist (by omega)
      · exact ⟨_, lt_of_distance hdist, rfl⟩

variable (dist allVectors query layer) in
theorem greedyClosest_ends {start : ℕ} (hstart : start < idx.nodes.length) :
    ∃ c < idx.nodes.length, idx.greedyClosest dist allVectors query start layer = some c := by
  obtain ⟨d, hd⟩ := exists_distance dist allVectors query hstart
  rw [greedyClosest, hd]
  refine greedyLoop_ends hd (Nat.lt_succ_of_le ?_)
  exact (List.length_filter_le _ _).trans (List.length_range).le

variable (dist allVectors query) in
theorem descend_ends (base k : ℕ) {current : ℕ} (hcurrent : current < idx.nodes.length) :
    ∃ c < idx.nodes.length, idx.descend dist allVectors query base k current = some c := by
  induction k generalizing current with
  | zero => exact ⟨current, hcurrent, rfl⟩
  | succ k ih =>
    obtain ⟨c, hc, hgreedy⟩ := greedyClosest_ends dist allVectors query (base + (k + 1)) hcurrent
    rw [descend, hgreedy]
    exact ih hc

/-- The `k` nodes nearest to the query, with their distances. -/
def Nearest (dist : V → V → D) (allVectors : ℕ → V) (idx : HnswIndex) (query : V) (k : ℕ)
    (results : List (ℕ × D)) : Prop :=
  ∃ all : List (ℕ × D), (all.map Prod.fst).Perm (List.range idx.nodes.length) ∧
    (∀ r ∈ all, idx.distance dist allVectors query r.1 = some r.2) ∧
    (all.Pairwise fun a b => a.2 ≤ b.2) ∧ results = all.take k

theorem search_nearest {k efSearch ep : ℕ} (hentry : idx.entryPoint = some ep)
    (hep : ep < idx.nodes.length) (hef : idx.nodes.length ≤ max efSearch k)
    (hconnected : ∀ i < idx.nodes.length, ∀ j < idx.nodes.length,
      Relation.ReflTransGen (Edge idx 0) i j) :
    ∃ results, idx.search dist allVectors query k efSearch = some results ∧
      Nearest dist allVectors idx query k results := by
  obtain ⟨c, hc, hdescend⟩ := descend_ends dist allVectors query 0 idx.maxLayer hep
  obtain ⟨results, hresults, hfound, hsorted, hall⟩ :=
    searchLayer_full dist allVectors query 0 hef hc
  refine ⟨results.take k, ?_, results, ?_, hfound.2, hsorted, rfl⟩
  · rw [search, hentry]
    simp only [hdescend, hresults, Option.bind_eq_bind, Option.bind_some]
  · refine (List.perm_ext_iff_of_nodup hfound.1 List.nodup_range).mpr fun n => ?_
    rw [List.mem_range]
    refine ⟨fun hn => ?_, fun hn => hall n (hconnected c hc n hn)⟩
    obtain ⟨r, hr, rfl⟩ := List.mem_map.mp hn
    exact lt_of_distance (hfound.2 r hr)

end Searching

end HnswIndex

end SkeinDB.Ann
