import SkeinDB.Ann.Hnsw

/-!
# Insertions into the navigable graph

An insertion links the new node with the neighbours that a search selects. A neighbour whose list
is full prunes it at once, and as the new node is not in the index yet, the pruning drops the new
edge and no other one. So the graph stays connected as long as one of the selected neighbours has
room.
-/
namespace SkeinDB.Ann
namespace HnswIndex

section Linking
variable {V D : Type} [LinearOrder D] {dist : V → V → D} {allVectors : ℕ → V}
variable {idx idx' : HnswIndex}

theorem neighborsAt_setNeighbors (idx : HnswIndex) (j layer : ℕ) (ns : List ℕ) (i l : ℕ) :
    (idx.setNeighbors j layer ns).neighborsAt i l =
      if i = j ∧ l = layer then (idx.neighborsAt i l).map fun _ => ns
      else idx.neighborsAt i l := by
  rw [neighborsAt, neighborsAt, setNeighbors, List.getElem?_modify]
  cases hnode : idx.nodes[i]? with
  | none => simp
  | some node =>
    by_cases hj : j = i
    · by_cases hl : layer = l
      · subst hj hl
        simp only [Option.map_eq_map, Option.map_some, and_self, if_true, Option.bind_some,
          List.getElem?_set_self']
        rfl
      · simp [hj, Ne.symm hl, List.getElem?_set_ne hl]
    · simp [hj, Ne.symm hj]

theorem rows_setNeighbors (j layer : ℕ) (ns : List ℕ) :
    (idx.setNeighbors j layer ns).nodes.map HnswNode.rowIdx = idx.nodes.map HnswNode.rowIdx := by
  refine List.ext_getElem? fun i => ?_
  rw [setNeighbors, List.getElem?_map, List.getElem?_map, List.getElem?_modify]
  cases idx.nodes[i]? with
  | none => rfl
  | some node => by_cases hj : j = i <;> simp [hj]

theorem length_congr (h : idx'.nodes.map HnswNode.rowIdx = idx.nodes.map HnswNode.rowIdx) :
    idx'.nodes.length = idx.nodes.length := by
  simpa using congrArg List.length h

/-- The list of one node on one layer is replaced. -/
structure Replaced (j layer : ℕ) (ns : List ℕ) (idx idx' : HnswIndex) : Prop where
  rows : idx'.nodes.map HnswNode.rowIdx = idx.nodes.map HnswNode.rowIdx
  lists : ∀ i l, idx'.neighborsAt i l =
    if i = j ∧ l = layer then (idx.neighborsAt i l).map fun _ => ns else idx.neighborsAt i l

variable (idx) in
theorem setNeighbors_replaced (j layer : ℕ) (ns : List ℕ) :
    Replaced j layer ns idx (idx.setNeighbors j layer ns) :=
  ⟨rows_setNeighbors j layer ns, neighborsAt_setNeighbors idx j layer ns⟩

variable (dist allVectors) in
/-- A full list that was pruned has the neighbours it had before the new one. -/
theorem pruneNeighbors_replaced {j layer maxConn new : ℕ} {ns : List ℕ}
    (hnew : idx.nodes.length ≤ new) (hns : idx.neighborsAt j layer = some (ns ++ [new]))
    (hlt : ∀ n ∈ ns, n < idx.nodes.length) (hlength : ns.length ≤ maxConn) :
    ∃ ns', ns'.Perm ns ∧
      Replaced j layer ns' idx (idx.pruneNeighbors dist allVectors j layer maxConn) := by
  obtain ⟨node, hnode, hlist⟩ := Option.bind_eq_some_iff.mp hns
  rw [pruneNeighbors, hnode]
  dsimp only
  rw [hlist]
  refine ⟨_, ?_, setNeighbors_replaced _ _ _ _⟩
  generalize hscored : (ns ++ [new]).filterMap (fun n =>
    (idx.distance dist allVectors (allVectors node.rowIdx) n).map (n, ·)) = scored
  have hfst : scored.map Prod.fst = ns := by
    rw [← hscored, List.filterMap_append, List.map_append, List.map_filterMap]
    have hlast : idx.distance dist allVectors (allVectors node.rowIdx) new = none :=
      distance_eq_none.mpr hnew
    have hall : ∀ n ∈ ns, ((idx.distance dist allVectors (allVectors node.rowIdx) n).map
        (n, ·)).map Prod.fst = some n := by
      intro n hn
      obtain ⟨d, hd⟩ := exists_distance dist allVectors (allVectors node.rowIdx) (hlt n hn)
      rw [hd]
      rfl
    rw [List.filterMap_congr hall, List.filterMap_some]
    simp [hlast]
  have hperm := (sortByDistance_perm scored).map Prod.fst
  have htake : (sortByDistance scored).take maxConn = sortByDistance scored := by
    refine List.take_of_length_le ?_
    rwa [(sortByDistance_perm scored).length_eq, ← List.length_map Prod.fst, hfst]
  rwa [htake, ← hfst]

variable (dist allVectors) in
theorem link_replaced {j layer new : ℕ} {ns : List ℕ} (hnew : idx.nodes.length ≤ new)
    (hns : idx.neighborsAt j layer = some ns) (hlt : ∀ n ∈ ns, n < idx.nodes.length)
    (hlength : ns.length ≤ maxConn layer) :
    ∃ ns', (if ns.length < maxConn layer then ns' = ns ++ [new] else ns'.Perm ns) ∧
      Replaced j layer ns' idx (link dist allVectors new layer idx j) := by
  have hset := setNeighbors_replaced idx j layer (ns ++ [new])
  have hnow := hset.lists j layer
  rw [if_pos ⟨rfl, rfl⟩, hns, Option.map_some] at hnow
  rw [link, hns]
  dsimp only
  rw [List.length_append, List.length_singleton]
  by_cases hroom : ns.length < maxConn layer
  · rw [if_neg (show ¬ maxConn layer < ns.length + 1 by omega)]
    exact ⟨_, by rw [if_pos hroom], hset⟩
  · rw [if_pos (show maxConn layer < ns.length + 1 by omega)]
    have hlen := length_congr hset.rows
    obtain ⟨ns', hperm, hreplaced⟩ := pruneNeighbors_replaced dist allVectors
      (by rwa [hlen]) hnow (by rwa [hlen]) hlength
    refine ⟨ns', by rwa [if_neg hroom], hreplaced.rows.trans hset.rows, fun i l => ?_⟩
    rw [hreplaced.lists, hset.lists]
    split_ifs
    · rw [Option.map_map]
      rfl
    · rfl

/-- The edges from the selected neighbours on one layer to the new node. -/
structure Linked (new layer : ℕ) (selected : List ℕ) (idx idx' : HnswIndex) : Prop where
  rows : idx'.nodes.map HnswNode.rowIdx = idx.nodes.map HnswNode.rowIdx
  others : ∀ i l, l ≠ layer ∨ i ∉ selected → idx'.neighborsAt i l = idx.neighborsAt i l
  unlinked : ∀ i, idx.neighborsAt i layer = none → idx'.neighborsAt i layer = none
  linked : ∀ i ∈ selected, ∀ ns, idx.neighborsAt i layer = some ns →
    ∃ ns', (if ns.length < maxConn layer then ns' = ns ++ [new] else ns'.Perm ns) ∧
      idx'.neighborsAt i layer = some ns'

/-- No edge is lost. -/
theorem Linked.keeps {new layer i j : ℕ} {selected ns : List ℕ}
    (h : Linked new layer selected idx idx') (hns : idx.neighborsAt i layer = some ns)
    (hj : j ∈ ns) : ∃ ns', idx'.neighborsAt i layer = some ns' ∧ j ∈ ns' := by
  by_cases hi : i ∈ selected
  · obtain ⟨ns', hns', hafter⟩ := h.linked i hi ns hns
    refine ⟨ns', hafter, ?_⟩
    split_ifs at hns'
    · rw [hns']
      exact List.mem_append_left _ hj
    · exact hns'.mem_iff.mpr hj
  · exact ⟨ns, by rw [h.others i layer (.inr hi), hns], hj⟩

theorem links_linked {new layer : ℕ} {selected : List ℕ} (hnodup : selected.Nodup)
    (hnew : idx.nodes.length ≤ new)
    (hlists : ∀ i ∈ selected, ∀ ns, idx.neighborsAt i layer = some ns →
      ns.length ≤ maxConn layer ∧ ∀ n ∈ ns, n < idx.nodes.length) :
    Linked new layer selected idx (selected.foldl (link dist allVectors new layer) idx) := by
  induction selected generalizing idx with
  | nil =>
    exact ⟨rfl, fun _ _ _ => rfl, fun _ h => h, fun i hi => absurd hi List.not_mem_nil⟩
  | cons j selected ih =>
    obtain ⟨hj, hrest⟩ := List.nodup_cons.mp hnodup
    rw [List.foldl_cons]
    cases hns : idx.neighborsAt j layer with
    | none =>
      have hskip : link dist allVectors new layer idx j = idx := by
        rw [link, hns]
      rw [hskip]
      have h := ih hrest hnew fun i hi => hlists i (List.mem_cons_of_mem j hi)
      refine ⟨h.rows, fun i l hil => h.others i l (hil.imp_right fun hi hmem =>
        hi (List.mem_cons_of_mem j hmem)), h.unlinked, fun i hi ns hi' => ?_⟩
      rcases List.mem_cons.mp hi with rfl | hi
      · rw [hns] at hi'
        cases hi'
      · exact h.linked i hi ns hi'
    | some ns =>
      obtain ⟨hlength, hlt⟩ := hlists j List.mem_cons_self ns hns
      obtain ⟨ns', hns', hstep⟩ := link_replaced dist allVectors hnew hns hlt hlength
      have hlen := length_congr hstep.rows
      have hkeep : ∀ i l, ¬ (i = j ∧ l = layer) →
          (link dist allVectors new layer idx j).neighborsAt i l = idx.neighborsAt i l :=
        fun i l hil => by rw [hstep.lists, if_neg hil]
      have hself : (link dist allVectors new layer idx j).neighborsAt j layer = some ns' := by
        rw [hstep.lists, if_pos ⟨rfl, rfl⟩, hns, Option.map_some]
      have hne : ∀ i ∈ selected, i ≠ j := fun i hi heq => hj (heq ▸ hi)
      have h := ih hrest (by rwa [hlen]) fun i hi ns hi' => by
        rw [hkeep i layer fun h => hne i hi h.1] at hi'
        rw [hlen]
        exact hlists i (List.mem_cons_of_mem j hi) ns hi'
      refine ⟨h.rows.trans hstep.rows, fun i l hil => ?_, fun i hi => ?_, fun i hi ns₁ hi' => ?_⟩
      · rw [h.others i l (hil.imp_right fun hi hmem => hi (List.mem_cons_of_mem j hmem))]
        refine hkeep i l fun heq => ?_
        rcases hil with hl | hi
        · exact hl heq.2
        · exact hi (heq.1 ▸ List.mem_cons_self)
      · refine h.unlinked i ?_
        rw [hstep.lists]
        split_ifs
        · rw [hi, Option.map_none]
        · exact hi
      · rcases List.mem_cons.mp hi with rfl | hi
        · obtain rfl : ns = ns₁ := Option.some.inj (hns.symm.trans hi')
          refine ⟨ns', hns', ?_⟩
          rw [h.others i layer (.inr hj), hself]
        · rw [← hkeep i layer fun h => hne i hi h.1] at hi'
          exact h.linked i hi ns₁ hi'

end Linking

section Layers
variable {V D : Type} [LinearOrder D] (dist : V → V → D) (allVectors : ℕ → V) (vector : V)
variable {old : HnswIndex} {s t : Insertion} {rowIdx layer n : ℕ}

/-- The layers `n`, …, 1. -/
def upperLayers : (n : ℕ) → Insertion → Option Insertion
  | 0, s => some s
  | n + 1, s => do
    let s ← insertAt dist allVectors vector (n + 1) s
    upperLayers n s

theorem insertLayers_succ (n : ℕ) (s : Insertion) :
    insertLayers dist allVectors vector (n + 1) s =
      (upperLayers dist allVectors vector n s).bind (insertAt dist allVectors vector 0) := by
  induction n generalizing s with
  | zero =>
    rw [insertLayers, upperLayers, Option.bind_some]
    cases insertAt dist allVectors vector 0 s <;> rfl
  | succ n ih =>
    rw [insertLayers, upperLayers]
    cases insertAt dist allVectors vector (n + 1) s with
    | none => rfl
    | some s' => exact ih s'

/-- The lists of the index are within their limits, and name other nodes, up to the new one. -/
def ListsBelow (bound : ℕ) (idx : HnswIndex) : Prop :=
  ∀ i l ns, idx.neighborsAt i l = some ns →
    ns.length ≤ maxConn l ∧ ∀ j ∈ ns, j < bound ∧ j ≠ i

/-- An insertion into `old` that has the layers below `n` still before it. -/
structure Underway (old : HnswIndex) (rowIdx n : ℕ) (s : Insertion) : Prop where
  row : s.node.rowIdx = rowIdx
  rows : s.idx.nodes.map HnswNode.rowIdx = old.nodes.map HnswNode.rowIdx
  below : ∀ i l, l < n → s.idx.neighborsAt i l = old.neighborsAt i l
  bottom : ∀ i, (s.idx.neighborsAt i 0).isSome = (old.neighborsAt i 0).isSome
  lists : ListsBelow (old.nodes.length + 1) s.idx
  own : ∀ l ns, s.node.neighbors[l]? = some ns →
    ns.length ≤ maxConn l ∧ ∀ j ∈ ns, j < old.nodes.length
  layers : 0 < s.node.neighbors.length
  current : s.current < old.nodes.length

omit [LinearOrder D] in
theorem mem_take_map {results : List (ℕ × D)} {k i : ℕ}
    (h : i ∈ (results.take k).map Prod.fst) : i ∈ results.map Prod.fst :=
  ((List.take_sublist k results).map Prod.fst).subset h

/-- What the insertion on one layer does. -/
structure InsertedAt (old : HnswIndex) (layer : ℕ) (s t : Insertion) (results : List (ℕ × D)) :
    Prop where
  found : Found dist allVectors s.idx vector results
  linked : Linked old.nodes.length layer ((results.take (maxConn layer)).map Prod.fst) s.idx t.idx
  node : t.node = { s.node with
    neighbors := s.node.neighbors.set layer ((results.take (maxConn layer)).map Prod.fst) }
  current : t.current = s.current ∨ t.current ∈ results.map Prod.fst

theorem insertAt_ends (hold : ListsBelow old.nodes.length old) (h : Underway old rowIdx n s)
    (hlayer : layer < n) :
    ∃ t results, insertAt dist allVectors vector layer s = some t ∧
      s.idx.searchLayer dist allVectors vector s.current efConstruction layer = some results ∧
      InsertedAt dist allVectors vector old layer s t results := by
  have hlen := length_congr h.rows
  obtain ⟨results, hresults, hfound⟩ := searchLayer_found dist allVectors vector layer
    efConstruction (show s.current < s.idx.nodes.length by rw [hlen]; exact h.current)
  refine ⟨_, results, by rw [insertAt, hresults]; rfl, hresults, hfound, ?_, rfl, ?_⟩
  · have hnodup := ((List.take_sublist (maxConn layer) results).map Prod.fst).nodup hfound.1
    rw [← hlen]
    refine links_linked hnodup le_rfl fun i _ ns hns => ?_
    rw [h.below i layer hlayer] at hns
    obtain ⟨hlength, hlt⟩ := hold i layer ns hns
    exact ⟨hlength, fun j hj => hlen ▸ (hlt j hj).1⟩
  · cases results with
    | nil => exact .inl rfl
    | cons r results => exact .inr List.mem_cons_self

omit [LinearOrder D] in
theorem InsertedAt.underway {results : List (ℕ × D)} (h : Underway old rowIdx (layer + 1) s)
    (hstep : InsertedAt dist allVectors vector old layer s t results) :
    Underway old rowIdx layer t := by
  have hlen := length_congr h.rows
  have hlt : ∀ i ∈ results.map Prod.fst, i < old.nodes.length := fun i hi => by
    obtain ⟨r, hr, rfl⟩ := List.mem_map.mp hi
    exact hlen ▸ lt_of_distance (hstep.found.2 r hr)
  have hlinked := hstep.linked
  refine ⟨?_, hlinked.rows.trans h.rows, fun i l hl => ?_, fun i => ?_, fun i l ns hns => ?_,
    fun l ns hns => ?_, ?_, ?_⟩
  · rw [hstep.node]
    exact h.row
  · rw [hlinked.others i l (.inl (Nat.ne_of_lt hl)), h.below i l (Nat.lt_succ_of_lt hl)]
  · rw [← h.bottom i]
    by_cases hi : 0 ≠ layer ∨ i ∉ (results.take (maxConn layer)).map Prod.fst
    · rw [hlinked.others i 0 hi]
    · rw [not_or, not_not, not_not] at hi
      obtain ⟨rfl, hi⟩ := hi
      cases hns : s.idx.neighborsAt i 0 with
      | none => rw [hlinked.unlinked i hns]
      | some ns =>
        obtain ⟨ns', -, hns'⟩ := hlinked.linked i hi ns hns
        rw [hns']
        rfl
  · by_cases hi : l ≠ layer ∨ i ∉ (results.take (maxConn layer)).map Prod.fst
    · rw [hlinked.others i l hi] at hns
      exact h.lists i l ns hns
    · rw [not_or, not_not, not_not] at hi
      obtain ⟨rfl, hi⟩ := hi
      cases hbefore : s.idx.neighborsAt i l with
      | none =>
        rw [hlinked.unlinked i hbefore] at hns
        cases hns
      | some ns₀ =>
        obtain ⟨ns', hns', hafter⟩ := hlinked.linked i hi ns₀ hbefore
        obtain rfl : ns' = ns := Option.some.inj (hafter.symm.trans hns)
        obtain ⟨hlength, hall⟩ := h.lists i l ns₀ hbefore
        split_ifs at hns' with hroom
        · rw [hns', List.length_append, List.length_singleton]
          refine ⟨hroom, fun j hj => ?_⟩
          rcases List.mem_append.mp hj with hj | hj
          · exact hall j hj
          · rw [List.mem_singleton.mp hj]
            have := hlt i (mem_take_map hi)
            exact ⟨Nat.lt_succ_self _, by omega⟩
        · exact ⟨hns'.length_eq ▸ hlength, fun j hj => hall j (hns'.mem_iff.mp hj)⟩
  · rw [hstep.node] at hns
    by_cases hl : layer = l
    · subst hl
      rw [List.getElem?_set_self'] at hns
      obtain ⟨_, -, rfl⟩ := Option.map_eq_some_iff.mp hns
      refine ⟨?_, fun j hj => hlt j (mem_take_map hj)⟩
      rw [Function.const_apply, List.length_map]
      exact List.length_take_le _ _
    · rw [List.getElem?_set_ne hl] at hns
      exact h.own l ns hns
  · rw [hstep.node, List.length_set]
    exact h.layers
  · rcases hstep.current with hcurrent | hcurrent
    · rw [hcurrent]
      exact h.current
    · exact hlt _ hcurrent

theorem upperLayers_ends (hold : ListsBelow old.nodes.length old)
    (h : Underway old rowIdx (n + 1) s) :
    ∃ t, upperLayers dist allVectors vector n s = some t ∧ Underway old rowIdx 1 t := by
  induction n generalizing s with
  | zero => exact ⟨s, rfl, h⟩
  | succ n ih =>
    obtain ⟨t, results, ht, -, hstep⟩ := insertAt_ends dist allVectors vector hold h
      (Nat.lt_succ_self (n + 1))
    obtain ⟨u, hu, hunderway⟩ := ih (hstep.underway dist allVectors vector h)
    exact ⟨u, by rw [upperLayers, ht]; exact hu, hunderway⟩

end Layers

section Runs
variable {V D : Type} [LinearOrder D] (dist : V → V → D) (allVectors : ℕ → V)
variable (randomLayer : ℕ → ℕ) {idx : HnswIndex}

/-- What holds of the index between insertions, whatever was inserted. -/
structure Sound (idx : HnswIndex) : Prop where
  entry : ∀ ep, idx.entryPoint = some ep → ep < idx.nodes.length
  empty : idx.entryPoint = none → idx.nodes = []
  bottom : ∀ i < idx.nodes.length, (idx.neighborsAt i 0).isSome = true
  lists : ListsBelow idx.nodes.length idx

def Connected (idx : HnswIndex) : Prop :=
  ∀ i < idx.nodes.length, ∀ j < idx.nodes.length, Relation.ReflTransGen (Edge idx 0) i j

def insertionOf (idx : HnswIndex) (level rowIdx current : ℕ) : Insertion :=
  ⟨idx, ⟨rowIdx, .replicate (level + 1) []⟩, current⟩

/-- The neighbours that an insertion selects on layer 0. -/
def selectedFor (idx : HnswIndex) (rowIdx : ℕ) (vector : V) : Option (List ℕ) := do
  let ep ← idx.entryPoint
  let level := idx.layerOf randomLayer rowIdx
  let current ← idx.descend dist allVectors vector level (idx.maxLayer - level) ep
  let s ← upperLayers dist allVectors vector (min level idx.maxLayer)
    (idx.insertionOf level rowIdx current)
  let neighbors ← s.idx.searchLayer dist allVectors vector s.current efConstruction 0
  some ((neighbors.take (maxConn 0)).map Prod.fst)

/-- The first node, or one that is linked with a node that has room for it on layer 0. -/
def HasRoom (idx : HnswIndex) (rowIdx : ℕ) (vector : V) : Prop :=
  idx.entryPoint = none ∨
    ∃ selected, idx.selectedFor dist allVectors randomLayer rowIdx vector = some selected ∧
      ∃ i ∈ selected, ∃ ns, idx.neighborsAt i 0 = some ns ∧ ns.length < maxConn 0

instance (idx : HnswIndex) (rowIdx : ℕ) (vector : V) :
    Decidable (HasRoom dist allVectors randomLayer idx rowIdx vector) :=
  inferInstanceAs (Decidable (idx.entryPoint = none ∨
    ∃ selected ∈ idx.selectedFor dist allVectors randomLayer rowIdx vector,
      ∃ i ∈ selected, ∃ ns ∈ idx.neighborsAt i 0, ns.length < maxConn 0))

theorem underway_start (h : Sound idx) (level rowIdx n : ℕ) {current : ℕ}
    (hcurrent : current < idx.nodes.length) :
    Underway idx rowIdx n (idx.insertionOf level rowIdx current) where
  row := rfl
  rows := rfl
  below _ _ _ := rfl
  bottom _ := rfl
  lists i l ns hns := by
    obtain ⟨hlength, hall⟩ := h.lists i l ns hns
    exact ⟨hlength, fun j hj => ⟨Nat.lt_succ_of_lt (hall j hj).1, (hall j hj).2⟩⟩
  own l ns hns := by
    obtain rfl := List.eq_of_mem_replicate (List.mem_of_getElem? hns)
    simp
  layers := by simp [insertionOf]
  current := hcurrent

variable (idx) in
theorem neighborsAt_concat {nodes : List HnswNode} {node : HnswNode} {entryPoint : Option ℕ}
    {maxLayer count : ℕ} (i l : ℕ) (hidx : nodes = idx.nodes) :
    neighborsAt ⟨nodes ++ [node], entryPoint, maxLayer, count⟩ i l =
      if i = idx.nodes.length then node.neighbors[l]? else idx.neighborsAt i l := by
  rw [neighborsAt, neighborsAt, hidx]
  rcases Nat.lt_trichotomy i idx.nodes.length with hlt | rfl | hgt
  · rw [List.getElem?_append_left hlt, if_neg (Nat.ne_of_lt hlt)]
  · rw [List.getElem?_concat_length, if_pos rfl, Option.bind_some]
  · rw [if_neg (Nat.ne_of_gt hgt), List.getElem?_eq_none (Nat.le_of_lt hgt),
      List.getElem?_eq_none]
    rwa [List.length_append, List.length_singleton]

/-- The index at the end of an insertion has the lists of the old nodes and those of the new one. -/
theorem Underway.neighborsAt_end {rowIdx n : ℕ} {t : Insertion} (h : Underway idx rowIdx n t)
    (entryPoint : Option ℕ) (maxLayer count i l : ℕ) :
    neighborsAt ⟨t.idx.nodes ++ [t.node], entryPoint, maxLayer, count⟩ i l =
      if i = idx.nodes.length then t.node.neighbors[l]? else t.idx.neighborsAt i l := by
  rw [neighborsAt_concat t.idx i l rfl, length_congr h.rows]

theorem Underway.sound_end {rowIdx n : ℕ} {t : Insertion} (h : Underway idx rowIdx n t)
    (hidx : Sound idx) {ep : ℕ} (hep : ep ≤ idx.nodes.length) (maxLayer count : ℕ) :
    Sound ⟨t.idx.nodes ++ [t.node], some ep, maxLayer, count⟩ := by
  have hlen : (t.idx.nodes ++ [t.node]).length = idx.nodes.length + 1 := by
    rw [List.length_append, List.length_singleton, length_congr h.rows]
  refine ⟨fun ep' hep' => ?_, fun hnone => (by cases hnone), fun i hi => ?_, fun i l ns hns => ?_⟩
  · rw [hlen, ← Option.some.inj hep']
    exact Nat.lt_succ_of_le hep
  · rw [hlen] at hi
    rw [h.neighborsAt_end]
    split_ifs with hnew
    · rw [List.getElem?_eq_getElem h.layers]
      rfl
    · rw [h.bottom]
      exact hidx.bottom i (by omega)
  · rw [hlen]
    rw [h.neighborsAt_end] at hns
    split_ifs at hns with hnew
    · obtain ⟨hlength, hall⟩ := h.own l ns hns
      refine ⟨hlength, fun j hj => ?_⟩
      have := hall j hj
      omega
    · exact h.lists i l ns hns

/-- How an insertion into an index that is not empty ends. -/
structure Inserted (idx : HnswIndex) (rowIdx : ℕ) (vector : V) (idx' : HnswIndex) : Prop where
  rows : idx'.nodes.map HnswNode.rowIdx = idx.nodes.map HnswNode.rowIdx ++ [rowIdx]
  sound : Sound idx'
  kept : ∀ i j, Edge idx 0 i j → Edge idx' 0 i j
  out : ∀ selected, idx.selectedFor dist allVectors randomLayer rowIdx vector = some selected →
    ∀ i ∈ selected, Edge idx' 0 idx.nodes.length i ∧ i < idx.nodes.length ∧
      ∀ ns, idx.neighborsAt i 0 = some ns → ns.length < maxConn 0 →
        Edge idx' 0 i idx.nodes.length

theorem insert_inserted (h : Sound idx) (rowIdx : ℕ) (vector : V) {ep : ℕ}
    (hep : idx.entryPoint = some ep) :
    ∃ idx', idx.insert dist allVectors randomLayer rowIdx vector = some idx' ∧
      Inserted dist allVectors randomLayer idx rowIdx vector idx' := by
  have hlt := h.entry ep hep
  generalize hlevel : idx.layerOf randomLayer rowIdx = level
  obtain ⟨current, hcurrent, hdescend⟩ := descend_ends dist allVectors vector level
    (idx.maxLayer - level) hlt
  obtain ⟨s, hs, hunderway⟩ := upperLayers_ends dist allVectors vector h.lists
    (underway_start h level rowIdx (min level idx.maxLayer + 1) hcurrent)
  obtain ⟨t, results, ht, hresults, hstep⟩ := insertAt_ends dist allVectors vector h.lists
    hunderway Nat.zero_lt_one
  have hend := hstep.underway dist allVectors vector hunderway
  have hselected : idx.selectedFor dist allVectors randomLayer rowIdx vector =
      some ((results.take (maxConn 0)).map Prod.fst) := by
    simp only [selectedFor, hep, hlevel, hdescend, hs, hresults, Option.bind_eq_bind,
      Option.bind_some]
  have hlen : (t.idx.nodes ++ [t.node]).length = idx.nodes.length + 1 := by
    rw [List.length_append, List.length_singleton, length_congr hend.rows]
  have hbottom : ∀ i, s.idx.neighborsAt i 0 = idx.neighborsAt i 0 := fun i =>
    hunderway.below i 0 Nat.zero_lt_one
  have hown : t.node.neighbors[0]? = some ((results.take (maxConn 0)).map Prod.fst) := by
    rw [hstep.node, List.getElem?_set_self hunderway.layers]
  have hentry : ∃ ep' ≤ idx.nodes.length,
      (if idx.maxLayer < level then some idx.nodes.length else idx.entryPoint) = some ep' := by
    split_ifs
    · exact ⟨_, le_rfl, rfl⟩
    · exact ⟨ep, hlt.le, hep⟩
  obtain ⟨ep', hep', hentry⟩ := hentry
  refine ⟨⟨t.idx.nodes ++ [t.node], some ep', max idx.maxLayer level, idx.count + 1⟩, ?_,
    ⟨?_, hend.sound_end h hep' _ _, ?_, ?_⟩⟩
  · rw [← hentry, insert, hep, hlevel]
    dsimp only
    rw [hdescend, Option.bind_eq_bind, Option.bind_some, insertLayers_succ]
    change Option.bind ((upperLayers dist allVectors vector _
      (idx.insertionOf level rowIdx current)).bind _) _ = _
    rw [hs, Option.bind_some, ht, Option.bind_some]
  · rw [List.map_append, hend.rows, List.map_singleton, hend.row]
  · rintro i j ⟨ns, hns, hj, hjlt⟩
    have hi : i ≠ idx.nodes.length := by
      rintro rfl
      rw [neighborsAt, List.getElem?_eq_none le_rfl] at hns
      cases hns
    obtain ⟨ns', hafter, hj'⟩ := hstep.linked.keeps ((hbottom i).trans hns) hj
    exact ⟨ns', (hend.neighborsAt_end _ _ _ i 0).trans ((if_neg hi).trans hafter), hj',
      hlen ▸ Nat.lt_succ_of_lt hjlt⟩
  · intro selected hsel i hi
    obtain rfl := Option.some.inj (hselected.symm.trans hsel)
    have hilt : i < idx.nodes.length := by
      obtain ⟨r, hr, rfl⟩ := List.mem_map.mp (mem_take_map hi)
      exact length_congr hunderway.rows ▸ lt_of_distance (hstep.found.2 r hr)
    refine ⟨⟨_, (hend.neighborsAt_end _ _ _ _ 0).trans ((if_pos rfl).trans hown), hi,
      hlen ▸ Nat.lt_succ_of_lt hilt⟩, hilt, fun ns hns hroom => ?_⟩
    obtain ⟨ns', hns', hafter⟩ := hstep.linked.linked i hi ns ((hbottom i).trans hns)
    rw [if_pos hroom] at hns'
    exact ⟨ns', (hend.neighborsAt_end _ _ _ i 0).trans ((if_neg (Nat.ne_of_lt hilt)).trans hafter),
      by simp [hns'], hlen ▸ Nat.lt_succ_self _⟩

theorem insert_first (hempty : idx.nodes = []) (rowIdx : ℕ) (vector : V)
    (hnone : idx.entryPoint = none) :
    ∃ idx', idx.insert dist allVectors randomLayer rowIdx vector = some idx' ∧
      idx'.nodes.map HnswNode.rowIdx = idx.nodes.map HnswNode.rowIdx ++ [rowIdx] ∧
      Sound idx' ∧ Connected idx' := by
  refine ⟨⟨idx.nodes ++ [⟨rowIdx, .replicate (idx.layerOf randomLayer rowIdx + 1) []⟩],
    some idx.nodes.length, idx.layerOf randomLayer rowIdx, idx.count + 1⟩,
    by rw [insert, hnone], by simp, ⟨fun ep hep => ?_, fun h => (by cases h), fun i hi => ?_,
      fun i l ns hns => ?_⟩, fun i hi j hj => ?_⟩
  · rw [← Option.some.inj hep, List.length_append]
    exact Nat.lt_succ_self _
  · rw [neighborsAt_concat idx i 0 rfl]
    rw [hempty] at hi ⊢
    obtain rfl : i = 0 := by simpa using hi
    simp
  · rw [neighborsAt_concat idx i l rfl] at hns
    split_ifs at hns
    · obtain rfl := List.eq_of_mem_replicate (List.mem_of_getElem? hns)
      simp
    · rw [neighborsAt, hempty] at hns
      cases hns
  · rw [hempty] at hi hj
    obtain rfl : i = 0 := by simpa using hi
    obtain rfl : j = 0 := by simpa using hj
    exact .refl

theorem Inserted.connected {rowIdx : ℕ} {vector : V} {idx' : HnswIndex}
    (h : Inserted dist allVectors randomLayer idx rowIdx vector idx') (hconnected : Connected idx)
    {selected : List ℕ}
    (hselected : idx.selectedFor dist allVectors randomLayer rowIdx vector = some selected)
    {i : ℕ} (hi : i ∈ selected) {ns : List ℕ} (hns : idx.neighborsAt i 0 = some ns)
    (hroom : ns.length < maxConn 0) : Connected idx' := by
  obtain ⟨hout, hlt, hback⟩ := h.out selected hselected i hi
  have hlift : ∀ j < idx.nodes.length, ∀ k < idx.nodes.length,
      Relation.ReflTransGen (Edge idx' 0) j k := fun j hj k hk =>
    Relation.ReflTransGen.mono h.kept _ _ (hconnected j hj k hk)
  have hlen : idx'.nodes.length = idx.nodes.length + 1 := by
    simpa using congrArg List.length h.rows
  have hto : ∀ j < idx'.nodes.length, Relation.ReflTransGen (Edge idx' 0) j i := by
    intro j hj
    rw [hlen] at hj
    rcases Nat.lt_succ_iff_lt_or_eq.mp hj with hold | rfl
    · exact hlift j hold i hlt
    · exact .single hout
  have hfrom : ∀ j < idx'.nodes.length, Relation.ReflTransGen (Edge idx' 0) i j := by
    intro j hj
    rw [hlen] at hj
    rcases Nat.lt_succ_iff_lt_or_eq.mp hj with hold | rfl
    · exact hlift i hlt j hold
    · exact .single (hback ns hns hroom)
  exact fun j hj k hk => (hto j hj).trans (hfrom k hk)

/-- An insertion ends, and keeps the lists within their limits. With room for the new node it
keeps the index connected as well. -/
theorem Sound.insert (h : Sound idx) (rowIdx : ℕ) (vector : V) :
    ∃ idx', idx.insert dist allVectors randomLayer rowIdx vector = some idx' ∧
      idx'.nodes.map HnswNode.rowIdx = idx.nodes.map HnswNode.rowIdx ++ [rowIdx] ∧ Sound idx' ∧
      (Connected idx → HasRoom dist allVectors randomLayer idx rowIdx vector → Connected idx') := by
  cases hentry : idx.entryPoint with
  | none =>
    obtain ⟨idx', hinsert, hrows, hsound, hconnected⟩ := insert_first dist allVectors randomLayer
      (h.empty hentry) rowIdx vector hentry
    exact ⟨idx', hinsert, hrows, hsound, fun _ _ => hconnected⟩
  | some ep =>
    obtain ⟨idx', hinsert, hinserted⟩ := insert_inserted dist allVectors randomLayer h rowIdx
      vector hentry
    refine ⟨idx', hinsert, hinserted.rows, hinserted.sound, fun hconnected hroom => ?_⟩
    rcases hroom with hnone | ⟨selected, hselected, i, hi, ns, hns, hlength⟩
    · rw [hentry] at hnone
      cases hnone
    · exact hinserted.connected dist allVectors randomLayer hconnected hselected hi hns hlength

/-- What a search relies on: lists within their limits, all nodes reached on layer 0 from the
entry point and from wherever the descent ends, and searches that find the nearest nodes. -/
structure Complete (dist : V → V → D) (allVectors : ℕ → V) (idx : HnswIndex) : Prop where
  lists : ListsBelow idx.nodes.length idx
  reachable : ∀ ep, idx.entryPoint = some ep → ∀ i < idx.nodes.length,
    Relation.ReflTransGen (Edge idx 0) ep i
  entered : ∀ ep query current, idx.entryPoint = some ep →
    idx.descend dist allVectors query 0 idx.maxLayer ep = some current →
    ∀ i < idx.nodes.length, Relation.ReflTransGen (Edge idx 0) current i
  searched : ∀ query k efSearch, idx.nodes.length ≤ max efSearch k →
    ∃ results, idx.search dist allVectors query k efSearch = some results ∧
      Nearest dist allVectors idx query k results

theorem Sound.complete (h : Sound idx) (hconnected : Connected idx) :
    Complete dist allVectors idx where
  lists := h.lists
  reachable ep hep i hi := hconnected ep (h.entry ep hep) i hi
  entered ep query current hep hdescend i hi := by
    obtain ⟨c, hc, hdescend'⟩ := descend_ends dist allVectors query 0 idx.maxLayer
      (h.entry ep hep)
    obtain rfl : c = current := Option.some.inj (hdescend'.symm.trans hdescend)
    exact hconnected c hc i hi
  searched query k efSearch hef := by
    cases hentry : idx.entryPoint with
    | none =>
      refine ⟨[], by rw [search, hentry], [], ?_, by simp, .nil, by simp⟩
      simp [h.empty hentry]
    | some ep => exact search_nearest hentry (h.entry ep hentry) hef hconnected

theorem insertAll_connected (rows : List (ℕ × V)) (h : Sound idx) (hconnected : Connected idx)
    (hroom : ∀ before row after, rows = before ++ row :: after →
      ∀ idx', idx.insertAll dist allVectors randomLayer before = some idx' →
        HasRoom dist allVectors randomLayer idx' row.1 row.2) :
    ∃ idx', idx.insertAll dist allVectors randomLayer rows = some idx' ∧
      idx'.nodes.map HnswNode.rowIdx = idx.nodes.map HnswNode.rowIdx ++ rows.map Prod.fst ∧
      Sound idx' ∧ Connected idx' := by
  induction rows generalizing idx with
  | nil => exact ⟨idx, rfl, by simp, h, hconnected⟩
  | cons row rows ih =>
    obtain ⟨idx₁, hinsert, hrows, hsound, hkeeps⟩ := h.insert dist allVectors randomLayer row.1
      row.2
    have hstep : ∀ rows, idx.insertAll dist allVectors randomLayer (row :: rows) =
        idx₁.insertAll dist allVectors randomLayer rows := by
      intro rows
      rw [insertAll, List.foldlM_cons, hinsert]
      rfl
    obtain ⟨idx₂, hall, hrows₂, hsound₂, hconnected₂⟩ := ih hsound
      (hkeeps hconnected (hroom [] row rows rfl idx rfl)) fun before row' after heq idx' hidx' =>
        hroom (row :: before) row' after (by rw [heq]; rfl) idx' ((hstep before).trans hidx')
    refine ⟨idx₂, (hstep rows).trans hall, ?_, hsound₂, hconnected₂⟩
    rw [hrows₂, hrows, List.map_cons, List.append_assoc, List.singleton_append]

/-- Every run whose insertions find room ends in an index in which searches are complete. -/
theorem insertAll_complete (rows : List (ℕ × V))
    (hroom : ∀ before row after, rows = before ++ row :: after →
      ∀ idx, new.insertAll dist allVectors randomLayer before = some idx →
        HasRoom dist allVectors randomLayer idx row.1 row.2) :
    ∃ idx, new.insertAll dist allVectors randomLayer rows = some idx ∧
      idx.nodes.map HnswNode.rowIdx = rows.map Prod.fst ∧ Complete dist allVectors idx := by
  have hnew : Sound new := ⟨fun ep hep => (by cases hep), fun _ => rfl, fun i hi => (by cases hi),
    fun i l ns hns => (by cases hns)⟩
  obtain ⟨idx, hall, hrows, hsound, hconnected⟩ := insertAll_connected dist allVectors randomLayer
    rows hnew (fun i hi => by cases hi) hroom
  exact ⟨idx, hall, hrows, hsound.complete dist allVectors hconnected⟩

end Runs

section Sample

/-- Vectors that are all equally far from each other. -/
def equidistant (_ _ : Unit) : ℕ := 0

def sampleRows (n : ℕ) : List (ℕ × Unit) := (List.range n).map (·, ())

theorem insertAll_complete_sample :
    ∃ idx, new.insertAll equidistant (fun _ => ()) (fun _ => 0) (sampleRows 4) = some idx ∧
      idx.nodes.map HnswNode.rowIdx = [0, 1, 2, 3] ∧
      Complete equidistant (fun _ => ()) idx := by
  refine insertAll_complete equidistant (fun _ => ()) (fun _ => 0) (sampleRows 4)
    fun before row after heq idx hidx => ?_
  have hroom : ∀ n < 4, ∀ row ∈ (sampleRows 4)[n]?,
      ∀ idx ∈ new.insertAll equidistant (fun _ => ()) (fun _ => 0) ((sampleRows 4).take n),
        HasRoom equidistant (fun _ => ()) (fun _ => 0) idx row.1 row.2 := by
    decide +kernel
  have hlength : before.length < 4 := by
    have := congrArg List.length heq
    simp only [sampleRows, List.length_map, List.length_range, List.length_append,
      List.length_cons] at this
    omega
  refine hroom before.length hlength row ?_ idx ?_
  · rw [heq, List.getElem?_append_right le_rfl, Nat.sub_self]
    rfl
  · rw [heq, List.take_left]
    exact hidx

/-- The 34th of equally distant vectors finds no neighbour with room, and no edge leads to it. -/
theorem no_edge_to_the_34th :
    ¬ ∃ idx, new.insertAll equidistant (fun _ => ()) (fun _ => 0) (sampleRows 34) = some idx ∧
      Complete equidistant (fun _ => ()) idx := by
  rintro ⟨idx, hidx, hcomplete⟩
  have hrun : (new.insertAll equidistant (fun _ => ()) (fun _ => 0) (sampleRows 34)).any
      (fun idx => idx.entryPoint = some 0 ∧ 33 < idx.nodes.length ∧
        ∀ node ∈ idx.nodes, ∀ ns ∈ node.neighbors[0]?, 33 ∉ ns) = true := by
    decide +kernel
  rw [hidx, Option.any_some, decide_eq_true_eq] at hrun
  obtain ⟨hentry, hlt, hnone⟩ := hrun
  rcases (hcomplete.reachable 0 hentry 33 hlt).cases_tail with h | ⟨i, -, ns, hns, hmem, -⟩
  · cases h
  · obtain ⟨node, hnode, hlist⟩ := Option.bind_eq_some_iff.mp hns
    exact hnone node (List.mem_of_getElem? hnode) ns hlist hmem

end Sample

end HnswIndex
end SkeinDB.Ann
