import SkeinDB.Queries.TimeTravel
import SkeinDB.Queries.References
import SkeinDB.Relations.Join
import SkeinDB.Tables.Replay

/-!
# JOIN

`skeindb/src/engine.rs`: `eval_join` pushes the merged rows that match in nested loops, with a flag
for the row of one side and, for FULL, flags for the rows of the other. Its answer is the join of
the two bags of rows, where no name of a column is on both sides.
-/
namespace SkeinDB.Queries
open SkeinDB.Tables SkeinDB.Transition

section FilterM
variable {ε α : Type} {p : α → Except ε Bool}

theorem filterAuxM_append (xs acc : List α) :
    List.filterAuxM p xs acc = (List.filterAuxM p xs []).map (· ++ acc) := by
  induction xs generalizing acc with
  | nil => rfl
  | cons x xs ih =>
    rw [List.filterAuxM, List.filterAuxM]
    rcases p x with e | keep
    · rfl
    · change List.filterAuxM p xs (bif keep then x :: acc else acc) =
        (List.filterAuxM p xs (bif keep then [x] else [])).map _
      rw [ih, ih (bif keep then [x] else [])]
      rcases List.filterAuxM p xs [] with e | ys
      · rfl
      · cases keep <;> simp [Except.map]

theorem filterM_cons (x : α) (xs : List α) :
    (x :: xs).filterM p = (p x).bind fun keep =>
      (xs.filterM p).map fun ys => if keep then x :: ys else ys := by
  change (List.filterAuxM p (x :: xs) []).bind _ = _
  rw [List.filterAuxM]
  rcases p x with e | keep
  · rfl
  · change (List.filterAuxM p xs (bif keep then [x] else [])).bind _ =
      ((List.filterAuxM p xs []).bind _).map _
    rw [filterAuxM_append]
    rcases List.filterAuxM p xs [] with e | ys
    · rfl
    · cases keep <;> simp [Except.map, Except.bind, pure, Except.pure]

theorem filterM_ok {test : α → Bool} {xs : List α} (h : ∀ x ∈ xs, p x = .ok (test x)) :
    xs.filterM p = .ok (xs.filter test) := by
  induction xs with
  | nil => rfl
  | cons x xs ih =>
    rw [filterM_cons, h x List.mem_cons_self, ih fun y hy => h y (List.mem_cons_of_mem _ hy),
      List.filter_cons]
    rfl

theorem exists_of_filterM {xs ys : List α} (h : xs.filterM p = .ok ys) {x : α} (hx : x ∈ xs) :
    ∃ keep, p x = .ok keep := by
  induction xs generalizing ys with
  | nil => cases hx
  | cons first xs ih =>
    rw [filterM_cons] at h
    rcases hp : p first with e | keep
    · rw [hp] at h
      cases h
    · rw [hp] at h
      rcases hxs : xs.filterM p with e | rest
      · rw [hxs] at h
        cases h
      · rcases List.mem_cons.mp hx with rfl | hx
        · exact ⟨keep, hp⟩
        · exact ih hxs hx

end FilterM

section Loops
variable {X ι : Type} (sem : SelectSemantics X ι) (args : List Lit) (on : Option (Expr X))

/-- The inner loop: what matches is pushed, and the flag says whether anything did. -/
def probeLoop (out : List RowCtx) (matched : Bool) :
    List RowCtx → Except String (List RowCtx × Bool)
  | [] => .ok (out, matched)
  | merged :: rest => do
    if ← onHolds sem args on merged then probeLoop (out ++ [merged]) true rest
    else probeLoop out matched rest

def innerLoop (right : List RowCtx) (out : List RowCtx) : List RowCtx → Except String (List RowCtx)
  | [] => .ok out
  | a :: left => do
    let (out, _) ← probeLoop sem args on out false (right.map (extendCtx a))
    innerLoop right out left

/-- The outer loop of LEFT and RIGHT: a row that was not matched is pushed with a null row. -/
def outerLoop (merged : RowCtx → List RowCtx) (unmatched : RowCtx → RowCtx) (out : List RowCtx) :
    List RowCtx → Except String (List RowCtx)
  | [] => .ok out
  | a :: rows => do
    let (out, matched) ← probeLoop sem args on out false (merged a)
    outerLoop merged unmatched (if matched then out else out ++ [unmatched a]) rows

/-- The inner loop of FULL, which also sets the flags of the other side. -/
def flagLoop (out : List RowCtx) (matched : Bool) (flags : List Bool) :
    List (RowCtx × ℕ) → Except String (List RowCtx × Bool × List Bool)
  | [] => .ok (out, matched, flags)
  | (merged, bi) :: rest => do
    if ← onHolds sem args on merged then flagLoop (out ++ [merged]) true (flags.set bi true) rest
    else flagLoop out matched flags rest

def fullLoop (right : List RowCtx) (rightNulls : RowCtx) (out : List RowCtx) (flags : List Bool) :
    List RowCtx → Except String (List RowCtx × List Bool)
  | [] => .ok (out, flags)
  | a :: left => do
    let (out, matched, flags) ←
      flagLoop sem args on out false flags (right.map (extendCtx a)).zipIdx
    fullLoop right rightNulls (if matched then out else out ++ [extendCtx a rightNulls]) flags left

def joinLoops (type : JoinType) (left right : List RowCtx) (leftNulls rightNulls : RowCtx) :
    Except String (List RowCtx) :=
  match type with
  | .cross => .ok (left.flatMap fun a => right.map (extendCtx a))
  | .inner => innerLoop sem args on right [] left
  | .left => outerLoop sem args on (fun a => right.map (extendCtx a)) (extendCtx · rightNulls)
      [] left
  | .right => outerLoop sem args on (fun b => left.map (extendCtx · b)) (extendCtx leftNulls)
      [] right
  | .full => do
    let (out, flags) ← fullLoop sem args on right rightNulls []
      (List.replicate right.length false) left
    let rest := right.zipIdx.filter fun (_, bi) => !flags.getD bi false
    .ok (out ++ rest.map fun (b, _) => extendCtx leftNulls b)

variable {sem args on}

theorem probeLoop_eq (out : List RowCtx) (matched : Bool) (merged : List RowCtx) :
    probeLoop sem args on out matched merged = (merged.filterM (onHolds sem args on)).map
      fun found => (out ++ found, matched || !found.isEmpty) := by
  induction merged generalizing out matched with
  | nil => exact congrArg Except.ok (by simp)
  | cons first rest ih =>
    rw [filterM_cons, probeLoop]
    rcases onHolds sem args on first with e | keep
    · rfl
    · cases keep with
      | true =>
        change probeLoop sem args on (out ++ [first]) true rest = _
        rw [ih]
        rcases rest.filterM (onHolds sem args on) with e | found
        · rfl
        · simp [Except.map, Except.bind]
      | false =>
        change probeLoop sem args on out matched rest = _
        rw [ih]
        rcases rest.filterM (onHolds sem args on) with e | found <;> rfl

theorem innerLoop_eq (right out left : List RowCtx) :
    innerLoop sem args on right out left =
      (left.mapM fun a => (right.map (extendCtx a)).filterM (onHolds sem args on)).map
        fun rows => out ++ rows.flatten := by
  induction left generalizing out with
  | nil => exact congrArg Except.ok (by simp)
  | cons a left ih =>
    rw [innerLoop, List.mapM_cons, probeLoop_eq]
    rcases (right.map (extendCtx a)).filterM (onHolds sem args on) with e | found
    · rfl
    · change innerLoop sem args on right (out ++ found) left = _
      rw [ih]
      rcases left.mapM fun a => (right.map (extendCtx a)).filterM (onHolds sem args on) with
        e | rows
      · rfl
      · simp [Except.map, bind, Except.bind, pure, Except.pure]

theorem outerLoop_eq (merged : RowCtx → List RowCtx) (unmatched : RowCtx → RowCtx)
    (out rows : List RowCtx) :
    outerLoop sem args on merged unmatched out rows =
      (rows.mapM fun a => matchesOr sem args on (unmatched a) (merged a)).map
        fun rows => out ++ rows.flatten := by
  induction rows generalizing out with
  | nil => exact congrArg Except.ok (by simp)
  | cons a rows ih =>
    rw [outerLoop, List.mapM_cons, probeLoop_eq, matchesOr]
    rcases (merged a).filterM (onHolds sem args on) with e | found
    · rfl
    · change outerLoop sem args on merged unmatched
        (if false || !found.isEmpty then out ++ found else out ++ found ++ [unmatched a]) rows = _
      rw [ih]
      rcases rows.mapM fun a => matchesOr sem args on (unmatched a) (merged a) with e | rest
      · rfl
      · cases found <;> simp [Except.map, bind, Except.bind, pure, Except.pure]

/-- The flags from the `k`th on after the hits of one row. -/
def setFlags (k : ℕ) (flags : List Bool) : List Bool → List Bool
  | [] => flags
  | hit :: hits => setFlags (k + 1) (if hit then flags.set k true else flags) hits

theorem setFlags_length (hits : List Bool) (k : ℕ) (flags : List Bool) :
    (setFlags k flags hits).length = flags.length := by
  induction hits generalizing k flags with
  | nil => rfl
  | cons hit hits ih =>
    rw [setFlags, ih]
    split <;> simp

theorem setFlags_getD (hits : List Bool) (k : ℕ) (flags : List Bool) {i : ℕ}
    (hi : i < flags.length) : (setFlags k flags hits).getD i false =
      (flags.getD i false || decide (k ≤ i) && hits.getD (i - k) false) := by
  induction hits generalizing k flags with
  | nil => simp [setFlags]
  | cons hit hits ih =>
    rw [setFlags, ih _ _ (by split <;> simp [hi])]
    rcases Nat.lt_trichotomy i k with hlt | rfl | hgt
    · have hk : ¬ k ≤ i ∧ ¬ k + 1 ≤ i := by omega
      cases hit <;> simp [hk, List.getElem?_set_ne (Nat.ne_of_gt hlt)]
    · have hk : ¬ i + 1 ≤ i := by omega
      cases hit <;> simp [hk, hi]
    · obtain ⟨j, rfl⟩ := Nat.exists_eq_add_of_lt hgt
      have hne : k ≠ k + j + 1 := by omega
      have hle : k ≤ k + j + 1 := by omega
      have hsub : k + j + 1 - k = j + 1 := by omega
      have hsub' : k + j + 1 - (k + 1) = j := by omega
      cases hit <;> simp [hle, hsub, hsub', List.getElem?_set_ne hne]

theorem flagLoop_eq (a : RowCtx) (right : List RowCtx) (k : ℕ) (out : List RowCtx)
    (matched : Bool) (flags : List Bool) :
    flagLoop sem args on out matched flags ((right.map (extendCtx a)).zipIdx k) =
      (right.mapM fun b => onHolds sem args on (extendCtx a b)).map fun hits =>
        let found := ((right.zip hits).filter (·.2)).map fun (b, _) => extendCtx a b
        (out ++ found, matched || !found.isEmpty, setFlags k flags hits) := by
  induction right generalizing k out matched flags with
  | nil => exact congrArg Except.ok (by simp [setFlags])
  | cons b right ih =>
    rw [List.map_cons, List.zipIdx_cons, flagLoop, List.mapM_cons]
    rcases onHolds sem args on (extendCtx a b) with e | hit
    · rfl
    · cases hit with
      | true =>
        change flagLoop sem args on (out ++ [extendCtx a b]) true (flags.set k true)
          ((right.map (extendCtx a)).zipIdx (k + 1)) = _
        rw [ih]
        rcases right.mapM fun b => onHolds sem args on (extendCtx a b) with e | hits
        · rfl
        · simp [Except.map, bind, Except.bind, pure, Except.pure, setFlags]
      | false =>
        change flagLoop sem args on out matched flags
          ((right.map (extendCtx a)).zipIdx (k + 1)) = _
        rw [ih]
        rcases right.mapM fun b => onHolds sem args on (extendCtx a b) with e | hits <;> rfl

theorem fullLoop_eq (right : List RowCtx) (rightNulls : RowCtx) (out : List RowCtx)
    (flags : List Bool) (left : List RowCtx) :
    fullLoop sem args on right rightNulls out flags left =
      (left.mapM fun a => right.mapM fun b => onHolds sem args on (extendCtx a b)).map fun hits =>
        (out ++ (left.zip hits).flatMap fun (a, matched) =>
          let found := ((right.zip matched).filter (·.2)).map fun (b, _) => extendCtx a b
          if found.isEmpty then [extendCtx a rightNulls] else found,
        hits.foldl (setFlags 0) flags) := by
  induction left generalizing out flags with
  | nil => exact congrArg Except.ok (by simp)
  | cons a left ih =>
    rw [fullLoop, List.mapM_cons, flagLoop_eq]
    rcases right.mapM fun b => onHolds sem args on (extendCtx a b) with e | hits
    · rfl
    · generalize hfound : ((right.zip hits).filter (·.2)).map
        (fun x : RowCtx × Bool => extendCtx a x.1) = found
      change fullLoop sem args on right rightNulls (if false || !_ then _ else _) _ left = _
      rw [ih]
      rcases left.mapM fun a => right.mapM fun b => onHolds sem args on (extendCtx a b) with
        e | rest
      · rfl
      · cases found <;>
          simp [Except.map, bind, Except.bind, pure, Except.pure, hfound]

theorem foldl_setFlags (hits : List (List Bool)) (flags : List Bool) {i : ℕ}
    (hi : i < flags.length) : (hits.foldl (setFlags 0) flags).getD i false =
      (flags.getD i false || hits.any fun matched => matched.getD i false) := by
  induction hits generalizing flags with
  | nil => simp
  | cons matched hits ih =>
    rw [List.foldl_cons, ih _ (by rwa [setFlags_length]), setFlags_getD _ _ _ hi]
    simp [Bool.or_assoc]

theorem joinLoops_eq (type : JoinType) (left right : List RowCtx) (leftNulls rightNulls : RowCtx) :
    joinLoops sem args on type left right leftNulls rightNulls =
      joinRows sem args type on left right leftNulls rightNulls := by
  cases type with
  | cross => rfl
  | inner =>
    rw [joinLoops, innerLoop_eq, joinRows]
    rcases left.mapM _ with e | rows <;> rfl
  | left =>
    rw [joinLoops, outerLoop_eq, joinRows]
    rcases left.mapM _ with e | rows <;> rfl
  | right =>
    rw [joinLoops, outerLoop_eq, joinRows]
    rcases right.mapM _ with e | rows <;> rfl
  | full =>
    rw [joinLoops, fullLoop_eq, joinRows, fullJoin]
    rcases left.mapM _ with e | hits
    · rfl
    · refine congrArg Except.ok ?_
      simp only [List.nil_append]
      congr 2
      refine List.filter_congr fun entry hentry => ?_
      have hi : entry.2 < right.length := (List.mem_zipIdx' hentry).1
      rw [foldl_setFlags _ _ (by simpa using hi)]
      simp [hi]

end Loops

section Bags
open Relations
variable {X ι : Type} {sem : SelectSemantics X ι} {args : List Lit} {on : Option (Expr X)}
  {left right : List RowCtx} {leftNulls rightNulls : RowCtx}

/-- ON has a value for every pair of rows. -/
def Evaluates (sem : SelectSemantics X ι) (args : List Lit) (on : Option (Expr X))
    (left right : List RowCtx) : Prop :=
  ∀ a ∈ left, ∀ b ∈ right, ∃ v, onHolds sem args on (extendCtx a b) = .ok v

/-- ON is true of the row. -/
def onTest (sem : SelectSemantics X ι) (args : List Lit) (on : Option (Expr X)) (ctx : RowCtx) :
    Bool :=
  (onHolds sem args on ctx).toOption.getD false

theorem Evaluates.test (h : Evaluates sem args on left right) :
    ∀ a ∈ left, ∀ b ∈ right,
      onHolds sem args on (extendCtx a b) = .ok (onTest sem args on (extendCtx a b)) := by
  intro a ha b hb
  obtain ⟨v, hv⟩ := h a ha b hb
  rw [onTest, hv]
  rfl

theorem mapM_ok {ε α β : Type} {f : α → Except ε β} {g : α → β} {xs : List α}
    (h : ∀ x ∈ xs, f x = .ok (g x)) : xs.mapM f = .ok (xs.map g) := by
  induction xs with
  | nil => rfl
  | cons x xs ih =>
    exact mapM_ok_cons.mpr ⟨_, _, h x List.mem_cons_self,
      ih fun y hy => h y (List.mem_cons_of_mem _ hy), rfl⟩

theorem joinRows_inner (h : Evaluates sem args on left right) :
    ∃ rows, joinRows sem args .inner on left right leftNulls rightNulls = .ok rows ∧
      (rows : Multiset RowCtx) = inner extendCtx (onTest sem args on ·) left right := by
  have hmap : (left.mapM fun a => (right.map (extendCtx a)).filterM (onHolds sem args on)) =
      .ok (left.map fun a => (right.map (extendCtx a)).filter (onTest sem args on)) :=
    mapM_ok fun a ha => filterM_ok (by simpa using h.test a ha)
  rw [joinRows, hmap]
  exact ⟨_, rfl, by rw [inner_coe, List.flatMap_def]⟩

theorem mapM_matchesOr {xs : List RowCtx} {unmatched : RowCtx → RowCtx}
    {merged : RowCtx → List RowCtx}
    (h : ∀ a ∈ xs, ∀ c ∈ merged a, onHolds sem args on c = .ok (onTest sem args on c)) :
    xs.mapM (fun a => matchesOr sem args on (unmatched a) (merged a)) = .ok (xs.map fun a =>
      let found := (merged a).filter (onTest sem args on)
      if found.isEmpty then [unmatched a] else found) := by
  refine mapM_ok fun a ha => ?_
  rw [matchesOr, filterM_ok (h a ha)]
  rfl

theorem joinRows_left (h : Evaluates sem args on left right) :
    ∃ rows, joinRows sem args .left on left right leftNulls rightNulls = .ok rows ∧
      (rows : Multiset RowCtx) =
        leftOuter extendCtx (onTest sem args on ·) (extendCtx · rightNulls) left right := by
  rw [joinRows, mapM_matchesOr fun a ha => by simpa using h.test a ha]
  exact ⟨_, rfl, by rw [leftOuter_coe, List.flatMap_def]⟩

theorem joinRows_right (h : Evaluates sem args on left right) :
    ∃ rows, joinRows sem args .right on left right leftNulls rightNulls = .ok rows ∧
      (rows : Multiset RowCtx) =
        leftOuter (fun b a => extendCtx a b) (onTest sem args on ·) (extendCtx leftNulls) right
          left := by
  rw [joinRows, mapM_matchesOr fun b hb => by simpa using fun a ha => h.test a ha b hb]
  exact ⟨_, rfl, by rw [leftOuter_coe, List.flatMap_def]⟩

theorem zip_hits (a : RowCtx) (test : RowCtx → Bool) (right : List RowCtx) :
    (((right.zip (right.map fun b => test (extendCtx a b))).filter (·.2)).map
      fun x : RowCtx × Bool => extendCtx a x.1) = (right.map (extendCtx a)).filter test := by
  induction right with
  | nil => rfl
  | cons b right ih =>
    rw [List.map_cons, List.map_cons, List.zip_cons_cons, List.filter_cons, List.filter_cons]
    split
    · rw [List.map_cons, ih]
    · exact ih

/-- A row of the second side has a flag if it was matched by a row of the first. -/
theorem unmatched_hits (test : RowCtx → RowCtx → Bool) (left right : List RowCtx)
    (nulls : RowCtx) :
    (right.zipIdx.filter fun entry => !(left.map fun a => right.map (test a)).any
      fun matched => matched.getD entry.2 false).map (fun entry => extendCtx nulls entry.1) =
    (right.filter fun b => !left.any fun a => test a b).map (extendCtx nulls) := by
  have hflags : (right.zipIdx.filter fun entry => !(left.map fun a => right.map (test a)).any
      fun matched => matched.getD entry.2 false) =
      right.zipIdx.filter ((fun b => !left.any fun a => test a b) ∘ Prod.fst) := by
    refine List.filter_congr fun entry hentry => ?_
    obtain ⟨hi, hb⟩ := List.mem_zipIdx' hentry
    rw [List.any_map, Function.comp, hb]
    simp [Function.comp_def, hi]
  have hfst : (fun entry : RowCtx × ℕ => extendCtx nulls entry.1) =
      extendCtx nulls ∘ Prod.fst := rfl
  rw [hflags, hfst, ← List.map_map, ← List.filter_map, List.zipIdx_map_fst]

theorem joinRows_full (h : Evaluates sem args on left right) :
    ∃ rows, joinRows sem args .full on left right leftNulls rightNulls = .ok rows ∧
      (rows : Multiset RowCtx) = fullOuter extendCtx (onTest sem args on ·)
        (extendCtx · rightNulls) (extendCtx leftNulls) left right := by
  have hmap : (left.mapM fun a => right.mapM fun b => onHolds sem args on (extendCtx a b)) =
      .ok (left.map fun a => right.map fun b => onTest sem args on (extendCtx a b)) :=
    mapM_ok fun a ha => mapM_ok (h.test a ha)
  rw [joinRows, fullJoin, hmap]
  refine ⟨_, rfl, ?_⟩
  have hrows : ((left.zip (left.map fun a => right.map fun b => onTest sem args on
      (extendCtx a b))).flatMap fun (a, matched) =>
        let found := ((right.zip matched).filter (·.2)).map fun (b, _) => extendCtx a b
        if found.isEmpty then [extendCtx a rightNulls] else found) =
      left.flatMap fun a =>
        let found := (right.map (extendCtx a)).filter (onTest sem args on)
        if found.isEmpty then [extendCtx a rightNulls] else found := by
    rw [← List.map_prod_left_eq_zip, List.flatMap_map]
    simp only [zip_hits]
  rw [fullOuter, leftOuter_coe, dangling_coe, ← hrows, Multiset.map_coe, Multiset.coe_add,
    ← unmatched_hits fun a b => onTest sem args on (extendCtx a b)]

theorem exists_of_bind_ok {ε α β : Type} {x : Except ε α} {f : α → Except ε β} {b : β}
    (h : (x >>= f) = .ok b) : ∃ a, x = .ok a ∧ f a = .ok b := by
  rcases x with e | a
  · cases h
  · exact ⟨a, rfl, h⟩

/-- ON is evaluated for every pair, also where a row has found its partner. -/
theorem Evaluates.of_joinRows {type : JoinType} (htype : type ≠ .cross) {rows : List RowCtx}
    (h : joinRows sem args type on left right leftNulls rightNulls = .ok rows) :
    Evaluates sem args on left right := by
  intro a ha b hb
  cases type with
  | cross => exact absurd rfl htype
  | inner =>
    obtain ⟨_, hmap, -⟩ := exists_of_bind_ok h
    obtain ⟨_, hfound⟩ := exists_of_mapM left hmap ha
    exact exists_of_filterM hfound (List.mem_map_of_mem hb)
  | left =>
    obtain ⟨_, hmap, -⟩ := exists_of_bind_ok h
    obtain ⟨_, hfound⟩ := exists_of_mapM left hmap ha
    obtain ⟨_, hfound, -⟩ := exists_of_bind_ok hfound
    exact exists_of_filterM hfound (List.mem_map_of_mem hb)
  | right =>
    obtain ⟨_, hmap, -⟩ := exists_of_bind_ok h
    obtain ⟨_, hfound⟩ := exists_of_mapM right hmap hb
    obtain ⟨_, hfound, -⟩ := exists_of_bind_ok hfound
    exact exists_of_filterM hfound (List.mem_map_of_mem (f := (extendCtx · b)) ha)
  | full =>
    obtain ⟨_, hmap, -⟩ := exists_of_bind_ok h
    obtain ⟨_, hhits⟩ := exists_of_mapM left hmap ha
    exact exists_of_mapM right hhits hb

end Bags

section Columns
variable {X : Type} (held : TableKey → Holding)

/-- The keys of the columns in the contexts of a table. -/
def qualified (name : String) (columns : List String) : List String :=
  columns.map fun col => name ++ "." ++ col

/-- The qualified names of the columns of an item of the FROM clause. -/
def refColumns : TableRef X → Except String (List String)
  | .base base =>
    match (held base.key).view with
    | some view => .ok (qualified base.name view.columns)
    | none => (held base.key).schema.map fun schema =>
        qualified base.name (schema.columns.map (·.name))
  | .join _ left right _ => do
    let a ← refColumns left
    let b ← refColumns right
    .ok (a ++ b)
  | .subquery _ _ => .error "subqueries in FROM are not implemented"

/-- What a context holds, whatever the order of its entries. -/
abbrev Cells := String → Option Lit

def cells (ctx : RowCtx) : Cells := fun key => ctx.lookup key

def mergeCells (a b : Cells) : Cells := fun key => (a key).or (b key)

/-- The columns are NULL. -/
def padCells (columns : List String) (a : Cells) : Cells := fun key =>
  if key ∈ columns then some .null else a key

/-- The row has no cells but those of the columns. -/
def Within (columns : List String) (c : Cells) : Prop := ∀ key, c key ≠ none → key ∈ columns

theorem cells_extendCtx (a b : RowCtx) :
    cells (extendCtx a b) = mergeCells (cells b) (cells a) := by
  funext key
  rw [cells, extendCtx, mergeCells, cells, cells]
  by_cases hb : key ∈ b
  · rw [AList.lookup_union_left hb]
    obtain ⟨v, hv⟩ := Option.isSome_iff_exists.mp (AList.lookup_isSome.mpr hb)
    rw [hv, Option.some_or]
  · rw [AList.lookup_union_right hb, AList.lookup_eq_none.mpr hb, Option.none_or]

theorem cells_insert (ctx : RowCtx) (key : String) (v : Lit) (key' : String) :
    cells (ctx.insert key v) key' = if key' = key then some v else cells ctx key' := by
  rw [cells, cells]
  split_ifs with h
  · rw [h, AList.lookup_insert]
  · rw [AList.lookup_insert_ne h]

theorem cells_nullCtx (name : String) (columns : List String) :
    cells (nullCtx name columns) = padCells (qualified name columns) fun _ => none := by
  have hfold : ∀ ctx : RowCtx, cells (columns.foldl (fun ctx column =>
      ctx.insert (name ++ "." ++ column) Lit.null) ctx) =
      padCells (qualified name columns) (cells ctx) := by
    induction columns with
    | nil => exact fun ctx => rfl
    | cons column columns ih =>
      intro ctx
      rw [List.foldl_cons, ih]
      funext key
      simp only [padCells, cells_insert, qualified, List.map_cons, List.mem_cons]
      by_cases hkey : key = name ++ "." ++ column <;> simp [hkey]
  exact hfold ∅

theorem padCells_append (a b : List String) :
    mergeCells (padCells b fun _ => none) (padCells a fun _ => none) =
      padCells (a ++ b) fun _ => none := by
  funext key
  by_cases ha : key ∈ a <;> by_cases hb : key ∈ b <;> simp [mergeCells, padCells, ha, hb]

variable {held}

theorem nullRowCtxForRef_cells (ref : TableRef X) {columns : List String}
    (h : refColumns held ref = .ok columns) :
    ∃ nulls, nullRowCtxForRef held ref = .ok nulls ∧
      cells nulls = padCells columns fun _ => none := by
  rcases ref with base | ⟨type, left, right, on⟩ | ⟨query, name⟩
  · rw [refColumns] at h
    rw [nullRowCtxForRef]
    rcases hview : (held base.key).view with _ | view
    · rw [hview] at h
      rcases hschema : (held base.key).schema with e | schema
      · rw [hschema] at h
        cases h
      · rw [hschema] at h
        cases h
        exact ⟨_, rfl, cells_nullCtx _ _⟩
    · rw [hview] at h
      cases h
      exact ⟨_, rfl, cells_nullCtx _ _⟩
  · rw [refColumns] at h
    obtain ⟨leftColumns, hleft, h⟩ := exists_of_bind_ok h
    obtain ⟨rightColumns, hright, h⟩ := exists_of_bind_ok h
    obtain ⟨a, ha, hacells⟩ := nullRowCtxForRef_cells left hleft
    obtain ⟨b, hb, hbcells⟩ := nullRowCtxForRef_cells right hright
    cases h
    refine ⟨extendCtx a b, ?_, ?_⟩
    · rw [nullRowCtxForRef, ha, hb]
      rfl
    · rw [cells_extendCtx, hacells, hbcells, padCells_append]
  · cases h

theorem Within.mono {columns columns' : List String} {c : Cells} (h : Within columns c)
    (hsub : columns ⊆ columns') : Within columns' c := fun key hkey => hsub (h key hkey)

theorem Within.merge {columns columns' : List String} {a b : Cells} (ha : Within columns a)
    (hb : Within columns' b) : Within (columns ++ columns') (mergeCells a b) := by
  intro key hkey
  rw [mergeCells] at hkey
  rcases hav : a key with _ | v
  · rw [hav, Option.none_or] at hkey
    exact List.mem_append_right _ (hb key hkey)
  · exact List.mem_append_left _ (ha key (by simp [hav]))

theorem Within.insert {columns : List String} {ctx : RowCtx} {key : String}
    (h : Within columns (cells ctx)) (hkey : key ∈ columns) (v : Lit) :
    Within columns (cells (ctx.insert key v)) := by
  intro key' hkey'
  rw [cells_insert] at hkey'
  split_ifs at hkey' with heq
  · rwa [heq]
  · exact h key' hkey'

theorem within_rowCtx (name : String) (columns : List String) (values : RowValues) :
    Within (qualified name columns) (cells (rowCtx name columns values)) := by
  rw [rowCtx]
  refine List.foldlRecOn (motive := fun ctx => Within _ (cells ctx)) columns _
    (fun key hkey => absurd rfl hkey) ?_
  intro ctx hctx column hcolumn
  rcases values column with _ | v
  · exact hctx
  · exact hctx.insert (List.mem_map_of_mem hcolumn) v

theorem within_viewRowCtx (name : String) (columns : List String) (row : List Lit) :
    Within (qualified name columns) (cells (viewRowCtx name columns row)) := by
  rw [viewRowCtx]
  refine List.foldlRecOn (motive := fun ctx => Within _ (cells ctx)) (columns.zip row) _
    (fun key hkey => absurd rfl hkey) ?_
  intro ctx hctx cell hcell
  exact hctx.insert (List.mem_map_of_mem (List.of_mem_zip hcell).1) cell.2

theorem within_padCells (columns : List String) :
    Within columns (padCells columns fun _ => none) := by
  intro key hkey
  by_contra hnot
  exact hkey (by rw [padCells, if_neg hnot])

theorem within_empty (columns : List String) : Within columns (cells ∅) :=
  fun _ hkey => absurd rfl hkey

/-- The null rows that a join asks for. -/
structure NullRows (type : JoinType) (leftColumns rightColumns : List String)
    (nulls : RowCtx × RowCtx) : Prop where
  left : type = .right ∨ type = .full → cells nulls.1 = padCells leftColumns fun _ => none
  right : type = .left ∨ type = .full → cells nulls.2 = padCells rightColumns fun _ => none
  leftWithin : Within leftColumns (cells nulls.1)
  rightWithin : Within rightColumns (cells nulls.2)

theorem joinNulls_nullRows {left right : TableRef X} {leftColumns rightColumns : List String}
    (hleft : refColumns held left = .ok leftColumns)
    (hright : refColumns held right = .ok rightColumns) (type : JoinType) :
    ∃ nulls, joinNulls held type left right = .ok nulls ∧
      NullRows type leftColumns rightColumns nulls := by
  obtain ⟨a, ha, hacells⟩ := nullRowCtxForRef_cells left hleft
  obtain ⟨b, hb, hbcells⟩ := nullRowCtxForRef_cells right hright
  have hawithin : Within leftColumns (cells a) := hacells ▸ within_padCells leftColumns
  have hbwithin : Within rightColumns (cells b) := hbcells ▸ within_padCells rightColumns
  cases type with
  | inner | cross =>
    exact ⟨_, rfl, by simp, by simp, within_empty leftColumns, within_empty rightColumns⟩
  | left =>
    rw [joinNulls, hb]
    exact ⟨_, rfl, by simp, fun _ => hbcells, within_empty leftColumns, hbwithin⟩
  | right =>
    rw [joinNulls, ha]
    exact ⟨_, rfl, fun _ => hacells, by simp, hawithin, within_empty rightColumns⟩
  | full =>
    rw [joinNulls, ha, hb]
    exact ⟨_, rfl, fun _ => hacells, fun _ => hbcells, hawithin, hbwithin⟩

end Columns

section Within
open Relations
variable {X ι : Type} {sem : SelectSemantics X ι} {args : List Lit} {on : Option (Expr X)}
  {left right rows : List RowCtx} {nulls : RowCtx × RowCtx} {type : JoinType}
  {leftColumns rightColumns : List String}

theorem mem_joinRows (h : joinRows sem args type on left right nulls.1 nulls.2 = .ok rows)
    {row : RowCtx} (hrow : row ∈ rows) :
    (∃ a ∈ left, ∃ b ∈ right, row = extendCtx a b) ∨ (∃ a ∈ left, row = extendCtx a nulls.2) ∨
      ∃ b ∈ right, row = extendCtx nulls.1 b := by
  have hbag : ∀ {rows' : List RowCtx} {bag : Multiset RowCtx},
      joinRows sem args type on left right nulls.1 nulls.2 = .ok rows' →
      (rows' : Multiset RowCtx) = bag → row ∈ bag := by
    intro rows' bag hrows' heq
    cases h.symm.trans hrows'
    rw [← heq]
    exact hrow
  by_cases htype : type = .cross
  · subst htype
    cases h
    obtain ⟨a, ha, hrow⟩ := List.mem_flatMap.mp hrow
    obtain ⟨b, hb, rfl⟩ := List.mem_map.mp hrow
    exact .inl ⟨a, ha, b, hb, rfl⟩
  have heval := Evaluates.of_joinRows htype h
  cases type with
  | cross => exact absurd rfl htype
  | inner =>
    obtain ⟨_, hrows, heq⟩ := @joinRows_inner _ _ _ _ _ _ _ nulls.1 nulls.2 heval
    exact .inl (exists_of_mem_inner (hbag hrows heq))
  | left =>
    obtain ⟨_, hrows, heq⟩ := joinRows_left heval
    exact (exists_of_mem_leftOuter (hbag hrows heq)).imp_right .inl
  | right =>
    obtain ⟨_, hrows, heq⟩ := joinRows_right heval
    rcases exists_of_mem_leftOuter (hbag hrows heq) with ⟨b, hb, a, ha, hrow⟩ | hpad
    · exact .inl ⟨a, ha, b, hb, hrow⟩
    · exact .inr (.inr hpad)
  | full =>
    obtain ⟨_, hrows, heq⟩ := joinRows_full heval
    exact exists_of_mem_fullOuter (hbag hrows heq)

theorem within_extendCtx {a b : RowCtx} (ha : Within leftColumns (cells a))
    (hb : Within rightColumns (cells b)) :
    Within (leftColumns ++ rightColumns) (cells (extendCtx a b)) := by
  rw [cells_extendCtx]
  exact (hb.merge ha).mono (by simp)

theorem joinRows_within (h : joinRows sem args type on left right nulls.1 nulls.2 = .ok rows)
    (hnulls : NullRows type leftColumns rightColumns nulls)
    (hleft : ∀ a ∈ left, Within leftColumns (cells a))
    (hright : ∀ b ∈ right, Within rightColumns (cells b)) :
    ∀ row ∈ rows, Within (leftColumns ++ rightColumns) (cells row) := by
  intro row hrow
  rcases mem_joinRows h hrow with ⟨a, ha, b, hb, rfl⟩ | ⟨a, ha, rfl⟩ | ⟨b, hb, rfl⟩
  · exact within_extendCtx (hleft a ha) (hright b hb)
  · exact within_extendCtx (hleft a ha) hnulls.rightWithin
  · exact within_extendCtx hnulls.leftWithin (hright b hb)

theorem shuffleLoop_perm {α : Type} (next : ℕ → ℕ) (i counter : ℕ) (rows : Array α) :
    (shuffleLoop next i counter rows).toList.Perm rows.toList := by
  induction i generalizing counter rows with
  | zero => exact .refl _
  | succ i ih =>
    refine (ih _ _).trans ?_
    rw [Array.swapIfInBounds]
    split_ifs with hi hj
    · exact (Array.swap_perm hi hj).toList
    · exact .refl _
    · exact .refl _

/-- The shuffle of a table under an oblivious policy keeps its rows. -/
theorem shuffleRows_perm {α : Type} (next : ℕ → ℕ) (rows : List α) :
    (shuffleRows next rows).Perm rows :=
  shuffleLoop_perm next _ _ _

theorem getSchema_of_getTable {e : Engine} {key : TableKey} {t : Table}
    (h : e.getTable key = .ok t) : e.getSchema key = .ok t.schema := by
  obtain ⟨schema, hschema, h⟩ := exists_of_bind_ok h
  rcases hdata : e.tables key with _ | data
  · rw [hdata] at h
    cases h
  · rw [hdata] at h
    cases h
    exact hschema

variable {e : ReadEngine} {asOfMs : Option ℕ} {log log' : List Read}

theorem scanTable_within (base : BaseTableRef) {columns : List String}
    (hcolumns : refColumns e.holding (.base base : TableRef X) = .ok columns)
    (h : scanTable sem e.holding base asOfMs log = .ok rows log') :
    ∀ row ∈ rows, Within columns (cells row) := by
  intro row hrow
  rw [scanTable] at h
  rw [refColumns] at hcolumns
  rcases hview : (e.holding base.key).view with _ | view
  · rw [hview] at h hcolumns
    obtain ⟨t, log₁, ht, h⟩ := bind_ok.mp h
    obtain ⟨_, log₂, -, h⟩ := bind_ok.mp h
    obtain ⟨entries, log₃, -, h⟩ := bind_ok.mp h
    have hschema : (e.holding base.key).schema = .ok t.schema :=
      getSchema_of_getTable (ok_of_answered ht)
    rw [hschema] at hcolumns
    cases hcolumns
    cases h
    have hmem : row ∈ (entries.filter (rowVisibleAt asOfMs)).map fun entry =>
        rowCtx base.name (t.schema.columns.map (·.name)) (schemaRowValue t.schema entry.row) := by
      rw [shuffled] at hrow
      split at hrow
      · exact (shuffleRows_perm _ _).mem_iff.mp hrow
      · exact hrow
    obtain ⟨entry, -, rfl⟩ := List.mem_map.mp hmem
    exact within_rowCtx _ _ _
  · rw [hview] at h hcolumns
    obtain ⟨_, log₁, -, h⟩ := bind_ok.mp h
    cases h
    cases hcolumns
    obtain ⟨values, -, rfl⟩ := List.mem_map.mp hrow
    exact within_viewRowCtx _ _ _

theorem evalFrom_within (ref : TableRef X) {columns : List String}
    {asOfMs : Option ℕ} {log log' : List Read} {rows : List RowCtx}
    (hcolumns : refColumns e.holding ref = .ok columns)
    (h : evalFrom sem e.holding args asOfMs ref log = .ok rows log') :
    ∀ row ∈ rows, Within columns (cells row) := by
  rcases ref with base | ⟨type, left, right, on⟩ | ⟨query, name⟩
  · exact scanTable_within base hcolumns h
  · rw [refColumns] at hcolumns
    obtain ⟨leftColumns, hleft, hcolumns⟩ := exists_of_bind_ok hcolumns
    obtain ⟨rightColumns, hright, hcolumns⟩ := exists_of_bind_ok hcolumns
    cases hcolumns
    rw [evalFrom] at h
    obtain ⟨leftRows, log₁, hl, h⟩ := bind_ok.mp h
    obtain ⟨rightRows, log₂, hr, h⟩ := bind_ok.mp h
    obtain ⟨nulls, log₃, hn, h⟩ := bind_ok.mp h
    obtain ⟨nulls', hn', hnulls⟩ := joinNulls_nullRows hleft hright type
    cases (ok_of_answered hn).symm.trans hn'
    exact joinRows_within (ok_of_answered h) hnulls (evalFrom_within left hleft hl)
      (evalFrom_within right hright hr)
  · cases h

end Within

section Spec
open Relations
variable {X ι : Type} (sem : SelectSemantics X ι) (args : List Lit) (on : Option (Expr X))

/-- ON is true of a row with these cells. -/
def OnHolds (c : Cells) : Prop := ∃ ctx, cells ctx = c ∧ onHolds sem args on ctx = .ok true

/-- The join of two bags of rows over some columns. RIGHT is LEFT with the sides swapped. -/
noncomputable def joined (type : JoinType) (leftColumns rightColumns : List String)
    (l r : Multiset Cells) : Multiset Cells :=
  match type with
  | .cross => inner mergeCells (fun _ => True) l r
  | .inner => inner mergeCells (OnHolds sem args on) l r
  | .left => leftOuter mergeCells (OnHolds sem args on) (padCells rightColumns) l r
  | .right => leftOuter mergeCells (OnHolds sem args on) (padCells leftColumns) r l
  | .full => fullOuter mergeCells (OnHolds sem args on) (padCells rightColumns)
      (padCells leftColumns) l r

variable {sem args on} {leftColumns rightColumns : List String}

theorem ctxScope_congr {a b : RowCtx} (h : cells a = cells b) : ctxScope a = ctxScope b := by
  have hperm : a.entries.Perm b.entries := List.lookup_ext a.nodupKeys b.nodupKeys fun key v => by
    have hkey : a.lookup key = b.lookup key := congrFun h key
    exact iff_of_eq (congrArg (v ∈ ·) hkey)
  funext col table
  rcases table with _ | table
  · have hfound := hperm.filter fun entry => endsWith entry.1 ("." ++ col)
    rw [ctxScope, ctxScope]
    generalize (a.entries.filter fun entry => endsWith entry.1 ("." ++ col)) = xs at hfound ⊢
    generalize (b.entries.filter fun entry => endsWith entry.1 ("." ++ col)) = ys at hfound ⊢
    rcases xs with _ | ⟨x, _ | ⟨x', xs⟩⟩
    · rw [hfound.nil_eq]
    · rw [List.singleton_perm.mp hfound]
    · rcases ys with _ | ⟨y, _ | ⟨y', ys⟩⟩
      · exact absurd hfound.length_eq (by simp)
      · exact absurd hfound.length_eq (by simp)
      · rfl
  · have hkey : a.lookup (table ++ "." ++ col) = b.lookup (table ++ "." ++ col) :=
      congrFun h _
    rw [ctxScope, ctxScope, hkey]

theorem onTest_iff (ctx : RowCtx) : onTest sem args on ctx ↔ OnHolds sem args on (cells ctx) := by
  have hholds : onTest sem args on ctx ↔ onHolds sem args on ctx = .ok true := by
    rw [onTest]
    rcases onHolds sem args on ctx with e | v
    · simp [Except.toOption]
    · simp [Except.toOption]
  rw [hholds]
  constructor
  · exact fun h => ⟨ctx, rfl, h⟩
  · rintro ⟨ctx', hcells, h⟩
    rw [← h]
    rcases on with _ | e
    · rfl
    · rw [onHolds, onHolds, ctxScope_congr hcells]

theorem mergeCells_comm {a b : Cells} (ha : Within leftColumns a) (hb : Within rightColumns b)
    (hdisjoint : leftColumns.Disjoint rightColumns) : mergeCells a b = mergeCells b a := by
  funext key
  rw [mergeCells, mergeCells]
  rcases hav : a key with _ | v
  · rw [Option.none_or, Option.or_none]
  · rcases hbv : b key with _ | w
    · rw [Option.none_or, Option.or_none]
    · exact absurd (hb key (by simp [hbv])) (hdisjoint (ha key (by simp [hav])))

theorem cells_merged {a b : RowCtx} (ha : Within leftColumns (cells a))
    (hb : Within rightColumns (cells b)) (hdisjoint : leftColumns.Disjoint rightColumns) :
    cells (extendCtx a b) = mergeCells (cells a) (cells b) := by
  rw [cells_extendCtx, mergeCells_comm ha hb hdisjoint]

theorem cells_padRight {nulls a : RowCtx}
    (hnulls : cells nulls = padCells rightColumns fun _ => none) :
    cells (extendCtx a nulls) = padCells rightColumns (cells a) := by
  rw [cells_extendCtx, hnulls]
  funext key
  by_cases hkey : key ∈ rightColumns <;> simp [mergeCells, padCells, hkey]

theorem cells_padLeft {nulls b : RowCtx}
    (hnulls : cells nulls = padCells leftColumns fun _ => none)
    (hb : Within rightColumns (cells b)) (hdisjoint : leftColumns.Disjoint rightColumns) :
    cells (extendCtx nulls b) = padCells leftColumns (cells b) := by
  have hnulls' : Within leftColumns (cells nulls) := hnulls ▸ within_padCells leftColumns
  rw [cells_extendCtx, mergeCells_comm hb hnulls' hdisjoint.symm, hnulls]
  funext key
  by_cases hkey : key ∈ leftColumns <;> simp [mergeCells, padCells, hkey]

section Rows
variable {left right : List RowCtx}

theorem carries_cells (hleft : ∀ a ∈ left, Within leftColumns (cells a))
    (hright : ∀ b ∈ right, Within rightColumns (cells b))
    (hdisjoint : leftColumns.Disjoint rightColumns) :
    Carries extendCtx (onTest sem args on ·) mergeCells (OnHolds sem args on) cells cells cells
      (left : Multiset RowCtx) (right : Multiset RowCtx) := by
  refine ⟨fun a ha b hb => cells_merged (hleft a ha) (hright b hb) hdisjoint, fun a ha b hb => ?_⟩
  rw [onTest_iff, cells_merged (hleft a ha) (hright b hb) hdisjoint]

/-- The rows of a join as bags of cells. -/
theorem joinRows_joined {type : JoinType} {nulls : RowCtx × RowCtx}
    (hnulls : NullRows type leftColumns rightColumns nulls)
    (hleft : ∀ a ∈ left, Within leftColumns (cells a))
    (hright : ∀ b ∈ right, Within rightColumns (cells b))
    (hdisjoint : leftColumns.Disjoint rightColumns)
    (heval : type = .cross ∨ Evaluates sem args on left right) :
    ∃ rows, joinRows sem args type on left right nulls.1 nulls.2 = .ok rows ∧
      (rows.map cells : Multiset Cells) = joined sem args on type leftColumns rightColumns
        (left.map cells : List Cells) (right.map cells : List Cells) := by
  have hcarries := @carries_cells _ _ sem args on _ _ _ _ hleft hright hdisjoint
  have hpadRight : ∀ a ∈ (left : Multiset RowCtx), type = .left ∨ type = .full →
      cells (extendCtx a nulls.2) = padCells rightColumns (cells a) :=
    fun a _ htype => cells_padRight (hnulls.right htype)
  have hpadLeft : ∀ b ∈ (right : Multiset RowCtx), type = .right ∨ type = .full →
      cells (extendCtx nulls.1 b) = padCells leftColumns (cells b) :=
    fun b hb htype => cells_padLeft (hnulls.left htype) (hright b hb) hdisjoint
  simp only [← Multiset.map_coe]
  cases type with
  | cross =>
    have hcross : Carries extendCtx (fun _ => (true : Bool)) mergeCells (fun _ => True) cells cells
        cells (left : Multiset RowCtx) (right : Multiset RowCtx) :=
      ⟨hcarries.merged, fun _ _ _ _ => by simp⟩
    refine ⟨_, rfl, ?_⟩
    rw [joined, ← hcross.inner, inner_coe]
    simp
  | inner =>
    obtain ⟨rows, hrows, hbag⟩ := @joinRows_inner _ _ _ _ _ _ _ nulls.1 nulls.2
      (heval.resolve_left (by simp))
    refine ⟨rows, hrows, ?_⟩
    rw [hbag, joined, hcarries.inner]
  | left =>
    obtain ⟨rows, hrows, hbag⟩ := @joinRows_left _ _ _ _ _ _ _ nulls.1 nulls.2
      (heval.resolve_left (by simp))
    refine ⟨rows, hrows, ?_⟩
    rw [hbag, joined, hcarries.leftOuter fun a ha => hpadRight a ha (.inl rfl)]
  | right =>
    obtain ⟨rows, hrows, hbag⟩ := @joinRows_right _ _ _ _ _ _ _ nulls.1 nulls.2
      (heval.resolve_left (by simp))
    have hswap : Carries (fun b a => extendCtx a b) (onTest sem args on ·) mergeCells
        (OnHolds sem args on) cells cells cells (right : Multiset RowCtx)
        (left : Multiset RowCtx) := by
      refine ⟨fun b hb a ha => ?_, fun b hb a ha => ?_⟩
      · rw [cells_extendCtx]
      · rw [onTest_iff, cells_extendCtx]
    refine ⟨rows, hrows, ?_⟩
    rw [hbag, joined, hswap.leftOuter fun b hb => hpadLeft b hb (.inl rfl)]
  | full =>
    obtain ⟨rows, hrows, hbag⟩ := @joinRows_full _ _ _ _ _ _ _ nulls.1 nulls.2
      (heval.resolve_left (by simp))
    refine ⟨rows, hrows, ?_⟩
    rw [hbag, joined, hcarries.fullOuter (fun a ha => hpadRight a ha (.inr rfl))
      fun b hb => hpadLeft b hb (.inr rfl)]

end Rows

end Spec

section Eval
variable {X ι : Type} {sem : SelectSemantics X ι} {args : List Lit} {e : ReadEngine}
  {log log₁ log₂ : List Read}

/-- Both sides are read as they are now. -/
def evalJoin (sem : SelectSemantics X ι) (held : TableKey → Holding) (args : List Lit)
    (type : JoinType) (left right : TableRef X) (on : Option (Expr X)) : Reading (List RowCtx) := do
  let leftRows ← evalFrom sem held args none left
  let rightRows ← evalFrom sem held args none right
  let nulls ← answered (joinNulls held type left right)
  answered (joinLoops sem args on type leftRows rightRows nulls.1 nulls.2)

theorem evalFrom_join (type : JoinType) (left right : TableRef X) (on : Option (Expr X))
    (asOfMs : Option ℕ) : evalFrom sem e.holding args asOfMs (.join type left right on) =
      evalJoin sem e.holding args type left right on := by
  rw [evalFrom, evalJoin]
  simp only [joinLoops_eq]

theorem eval_join_rows (type : JoinType) {left right : TableRef X}
    (on : Option (Expr X)) {leftColumns rightColumns : List String}
    (hleft : refColumns e.holding left = .ok leftColumns)
    (hright : refColumns e.holding right = .ok rightColumns)
    (hdisjoint : leftColumns.Disjoint rightColumns) {l r : List RowCtx}
    (hl : evalFrom sem e.holding args none left log = .ok l log₁)
    (hr : evalFrom sem e.holding args none right log₁ = .ok r log₂) :
    (type = .cross ∨ Evaluates sem args on l r →
      ∃ rows, evalJoin sem e.holding args type left right on log = .ok rows log₂ ∧
        (∀ row ∈ rows, Within (leftColumns ++ rightColumns) (cells row)) ∧
        (rows.map cells : Multiset Cells) = joined sem args on type leftColumns rightColumns
          (l.map cells : List Cells) (r.map cells : List Cells)) ∧
    (¬ (type = .cross ∨ Evaluates sem args on l r) →
      ∃ err, evalJoin sem e.holding args type left right on log = .error err log₂) := by
  obtain ⟨nulls, hn, hnulls⟩ := joinNulls_nullRows hleft hright type
  have hlw := evalFrom_within left hleft hl
  have hrw := evalFrom_within right hright hr
  have hrun : evalJoin sem e.holding args type left right on log =
      answered (joinRows sem args type on l r nulls.1 nulls.2) log₂ := by
    rw [evalJoin, bind_of_ok hl, bind_of_ok hr, hn]
    exact congrArg (fun rows => answered rows log₂) (joinLoops_eq type l r nulls.1 nulls.2)
  rw [hrun]
  refine ⟨fun heval => ?_, fun hnot => ?_⟩
  · obtain ⟨rows, hrows, hbag⟩ := joinRows_joined hnulls hlw hrw hdisjoint heval
    refine ⟨rows, by rw [hrows]; rfl, joinRows_within hrows hnulls hlw hrw, hbag⟩
  · obtain ⟨htype, heval⟩ := not_or.mp hnot
    rcases hrows : joinRows sem args type on l r nulls.1 nulls.2 with err | rows
    · exact ⟨err, rfl⟩
    · exact absurd (Evaluates.of_joinRows htype hrows) heval

end Eval

section Samples

def columnTable (column : String) (values : List Lit) : Table where
  schema := { columns := [⟨column, "i64", false, false⟩], primaryKey := [column] }
  data := { rows := values.map fun v => ⟨fun col => if col = column then some v else none,
    1, 1, false, 5⟩ }

def twoTables (name name' : String) (t t' : Table) : ReadEngine where
  catalog := (∅ : Catalog).insert "shop"
    (((∅ : AList _).insert name t.schema).insert name' t'.schema)
  tables key := if key = ⟨"shop", name⟩ then some t.data
    else if key = ⟨"shop", name'⟩ then some t'.data else none

def ordersAndItems : ReadEngine :=
  twoTables "orders" "items" (columnTable "id" [.i64 1, .i64 2]) (columnTable "n" [.i64 2])

def inShop (table : String) : TableRef Empty := .base ⟨"shop", table, none⟩

def rowsIn (result : EStateM.Result String (List Read) (List RowCtx)) : List RowCtx :=
  match result with
  | .ok rows _ => rows
  | .error _ _ => []

theorem eval_join_rows_sample :
    ∃ rows log, evalJoin plainSemantics ordersAndItems.holding [] .left (inShop "orders")
        (inShop "items") none [] = .ok rows log ∧
      (rows.map cells : Multiset Cells) = joined plainSemantics [] (none : Option (Expr Empty))
        .left ["orders.id"] ["items.n"]
        ((rowsIn (evalFrom plainSemantics ordersAndItems.holding [] none (inShop "orders") [])).map
          cells : List Cells)
        ((rowsIn (evalFrom plainSemantics ordersAndItems.holding [] none (inShop "items") [])).map
          cells : List Cells) := by
  have hleft : refColumns ordersAndItems.holding (inShop "orders") = .ok ["orders.id"] := rfl
  have hright : refColumns ordersAndItems.holding (inShop "items") = .ok ["items.n"] := rfl
  obtain ⟨rows, hrows, -, hbag⟩ := (@eval_join_rows _ _ plainSemantics [] ordersAndItems [] _ _
    .left _ _ none _ _ hleft hright (by simp) _ _ rfl rfl).1
    (.inr fun _ _ _ _ => ⟨true, rfl⟩)
  exact ⟨rows, _, hrows, hbag⟩

/-- The column `y.c` of `x` and the column `c` of `x.y` have one key. -/
def dottedNames : ReadEngine :=
  twoTables "x" "x.y" (columnTable "y.c" [.i64 1]) (columnTable "c" [.i64 2])

/-- The row of the second side wins, so RIGHT is not LEFT with the sides swapped. -/
theorem dotted_names_collide :
    ((rowsIn (evalJoin plainSemantics dottedNames.holding [] .right (inShop "x") (inShop "x.y") none
        [])).map cells : Multiset Cells) ≠
      (rowsIn (evalJoin plainSemantics dottedNames.holding [] .left (inShop "x.y") (inShop "x") none
        [])).map cells := by
  have hright : (rowsIn (evalJoin plainSemantics dottedNames.holding [] .right (inShop "x")
      (inShop "x.y") none [])).map (cells · "x.y.c") = [some (.i64 2)] := by
    with_unfolding_all rfl
  have hleft : (rowsIn (evalJoin plainSemantics dottedNames.holding [] .left (inShop "x.y")
      (inShop "x") none [])).map (cells · "x.y.c") = [some (.i64 1)] := by
    with_unfolding_all rfl
  intro h
  have hkey := congrArg (Multiset.map (· "x.y.c")) h
  rw [Multiset.map_coe, Multiset.map_coe, List.map_map, List.map_map] at hkey
  have hcells := Multiset.coe_eq_coe.mp hkey
  rw [Function.comp_def, hright, hleft, List.singleton_perm_singleton] at hcells
  cases hcells

end Samples

end SkeinDB.Queries
