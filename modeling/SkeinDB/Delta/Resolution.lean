import Mathlib.Data.Finset.Card
import Mathlib.Tactic

/-!
# Resolving delta-encoded values

A store maps keys to nodes: a node is a value, or a patch against the value of a
base key together with alternative patches against other keys. `Resolves` is the
meaning of a key along base patches only; `Sound` says in addition that every
alternative patch gives the same value. Both are stable under adding keys, under
replacing a node by its value, and under replacing alternatives by patches against
ancestors. `Grounded` bounds the depth of the recursion that evaluates a key.
-/
namespace SkeinDB.Delta

section Grounded
variable {α : Type*} {deps : α → Option (List α)}

/-- The dependencies of a node bottom out within `n` levels. -/
def Grounded (deps : α → Option (List α)) : ℕ → α → Prop
  | 0, _ => False
  | n + 1, x => ∃ ds, deps x = some ds ∧ ∀ d ∈ ds, Grounded deps n d

theorem Grounded.mono {n m : ℕ} {x : α} (h : Grounded deps n x) (hnm : n ≤ m) :
    Grounded deps m x := by
  induction n generalizing m x with
  | zero => exact h.elim
  | succ n ih =>
    obtain ⟨ds, hx, hds⟩ := h
    obtain ⟨m, rfl⟩ : ∃ k, m = k + 1 := ⟨m - 1, by omega⟩
    exact ⟨ds, hx, fun d hd => ih (hds d hd) (by omega)⟩

theorem Grounded.exists_forall {ds : List α} (h : ∀ d ∈ ds, ∃ n, Grounded deps n d) :
    ∃ m, ∀ d ∈ ds, Grounded deps m d := by
  induction ds with
  | nil => exact ⟨0, by simp⟩
  | cons d ds ih =>
    obtain ⟨m, hm⟩ := ih (fun e he => h e (by simp [he]))
    obtain ⟨n, hn⟩ := h d (by simp)
    refine ⟨max m n, fun e he => ?_⟩
    rcases List.mem_cons.mp he with rfl | he
    · exact hn.mono (by omega)
    · exact (hm e he).mono (by omega)

/-- A node that needs `n + 1` levels has `n + 1` distinct nodes below it, itself included. -/
theorem Grounded.exists_card [DecidableEq α] {n : ℕ} {x : α} (h : Grounded deps (n + 1) x)
    (hmin : ¬ Grounded deps n x) :
    ∃ S : Finset α, S.card = n + 1 ∧ ∀ y ∈ S, Grounded deps (n + 1) y := by
  induction n generalizing x with
  | zero => exact ⟨{x}, by simp, by simpa using h⟩
  | succ n ih =>
    obtain ⟨ds, hx, hds⟩ := h
    obtain ⟨d, hd, hdmin⟩ : ∃ d ∈ ds, ¬ Grounded deps n d := by
      by_contra hall
      push Not at hall
      exact hmin ⟨ds, hx, hall⟩
    obtain ⟨S, hcard, hS⟩ := ih (hds d hd) hdmin
    have hxS : x ∉ S := fun hmem => hmin (hS x hmem)
    refine ⟨insert x S, by rw [Finset.card_insert_of_notMem hxS, hcard], fun y hy => ?_⟩
    rcases Finset.mem_insert.mp hy with rfl | hy
    · exact ⟨ds, hx, hds⟩
    · exact (hS y hy).mono (by omega)

/-- No evaluation is deeper than the number of nodes there are. -/
theorem Grounded.le_card [DecidableEq α] {present : Finset α}
    (hpresent : ∀ x ds, deps x = some ds → x ∈ present) {n : ℕ} {x : α}
    (h : Grounded deps n x) : Grounded deps present.card x := by
  classical
  have hex : ∃ n, Grounded deps n x := ⟨n, h⟩
  have hmin := Nat.find_spec hex
  obtain ⟨k, hk⟩ : ∃ k, Nat.find hex = k + 1 := by
    cases hfind : Nat.find hex with
    | zero =>
      rw [hfind] at hmin
      exact hmin.elim
    | succ k => exact ⟨k, rfl⟩
  rw [hk] at hmin
  obtain ⟨S, hcard, hS⟩ := hmin.exists_card (Nat.find_min hex (by omega))
  refine hmin.mono ?_
  rw [← hcard]
  refine Finset.card_le_card fun y hy => ?_
  obtain ⟨ds, hy, -⟩ := hS y hy
  exact hpresent y ds hy

end Grounded

/-- What a key holds. `accepts` is the check a reconstructed value must pass. -/
inductive Node (K P V : Type*)
  | cell (value : V)
  | delta (base : K) (patch : P) (skips : List (K × P)) (accepts : V → Bool)

variable {K P V : Type*} {apply : V → P → Option V}

namespace Node

def dropSkips : Node K P V → Node K P V
  | cell value => cell value
  | delta base patch _ accepts => delta base patch [] accepts

/-- The keys an evaluation visits next. -/
def deps : Node K P V → List K
  | cell _ => []
  | delta base _ skips _ => base :: skips.map Prod.fst

end Node

/-- The value of a key along base patches. -/
inductive Resolves (apply : V → P → Option V) (look : K → Option (Node K P V)) : K → V → Prop
  | cell {k : K} {v : V} (h : look k = some (.cell v)) : Resolves apply look k v
  | delta {k base : K} {patch : P} {skips : List (K × P)} {accepts : V → Bool} {b v : V}
      (h : look k = some (.delta base patch skips accepts)) (hbase : Resolves apply look base b)
      (hpatch : apply b patch = some v) (haccepts : accepts v) : Resolves apply look k v

/-- The value of a key along base patches, with every alternative patch agreeing. -/
inductive Sound (apply : V → P → Option V) (look : K → Option (Node K P V)) : K → V → Prop
  | cell {k : K} {v : V} (h : look k = some (.cell v)) : Sound apply look k v
  | delta {k base : K} {patch : P} {skips : List (K × P)} {accepts : V → Bool} {b v : V}
      (skipValue : K × P → V)
      (h : look k = some (.delta base patch skips accepts)) (hbase : Sound apply look base b)
      (hpatch : apply b patch = some v) (haccepts : accepts v)
      (hskip : ∀ q ∈ skips, Sound apply look q.1 (skipValue q))
      (hskipPatch : ∀ q ∈ skips, apply (skipValue q) q.2 = some v) : Sound apply look k v

section
variable {look look' : K → Option (Node K P V)}

theorem Sound.resolves {k : K} {v : V} (h : Sound apply look k v) : Resolves apply look k v := by
  induction h with
  | cell h => exact .cell h
  | delta _ h _ hpatch haccepts _ _ ih _ => exact .delta h ih hpatch haccepts

theorem Resolves.functional {k : K} {v w : V} (h : Resolves apply look k v)
    (h' : Resolves apply look k w) : v = w := by
  induction h generalizing w with
  | cell h =>
    cases h' with
    | cell h' => simpa [h] using h'
    | delta h' => simp [h] at h'
  | delta h _ hpatch _ ih =>
    cases h' with
    | cell h' => simp [h] at h'
    | delta h' hbase' hpatch' _ =>
      rw [h] at h'
      cases h'
      rw [ih hbase', hpatch'] at hpatch
      exact (Option.some.inj hpatch).symm

/-- A key that resolves is present. -/
theorem Resolves.isSome {k : K} {v : V} (h : Resolves apply look k v) : (look k).isSome := by
  cases h with
  | cell h => simp [h]
  | delta h => simp [h]

/-- Resolution ignores alternatives. -/
theorem resolves_iff_sound_dropSkips {k : K} {v : V} :
    Resolves apply look k v ↔
      Sound apply (fun k => (look k).map Node.dropSkips) k v := by
  constructor
  · intro h
    induction h with
    | cell h => exact .cell (by simp [h, Node.dropSkips])
    | @delta _ _ _ _ _ b _ h _ hpatch haccepts ih =>
      exact .delta (fun _ => b) (by simp [h, Node.dropSkips]; rfl) ih hpatch haccepts
        (by simp) (by simp)
  · intro h
    induction h with
    | @cell k v h =>
      cases hk : look k with
      | none => simp [hk] at h
      | some n =>
        cases n with
        | cell w =>
          simp only [hk, Option.map_some, Node.dropSkips, Option.some.injEq, Node.cell.injEq] at h
          exact .cell (by rw [hk, h])
        | delta base patch skips accepts => simp [hk, Node.dropSkips] at h
    | @delta k base patch skips accepts b v _ h _ hpatch haccepts _ _ ih _ =>
      cases hk : look k with
      | none => simp [hk] at h
      | some n =>
        cases n with
        | cell w => simp [hk, Node.dropSkips] at h
        | delta base' patch' skips' accepts' =>
          simp only [hk, Option.map_some, Node.dropSkips, Option.some.injEq,
            Node.delta.injEq] at h
          obtain ⟨rfl, rfl, -, rfl⟩ := h
          exact .delta hk ih hpatch haccepts

/-- The recursion that evaluates a sound key is bounded. -/
theorem Sound.grounded {k : K} {v : V} (h : Sound apply look k v) :
    ∃ n, Grounded (fun k => (look k).map Node.deps) n k := by
  induction h with
  | cell h => exact ⟨1, [], by simp [h, Node.deps], by simp⟩
  | @delta k base patch skips accepts b v skipValue h _ _ _ _ _ ihbase ihskip =>
    obtain ⟨n, hn⟩ := ihbase
    obtain ⟨m, hm⟩ : ∃ m, ∀ d ∈ skips.map Prod.fst,
        Grounded (fun k => (look k).map Node.deps) m d := by
      refine Grounded.exists_forall fun d hd => ?_
      obtain ⟨q, hq, rfl⟩ := List.mem_map.mp hd
      exact ihskip q hq
    refine ⟨max n m + 1, base :: skips.map Prod.fst, by simp [h, Node.deps], fun d hd => ?_⟩
    rcases List.mem_cons.mp hd with rfl | hd
    · exact hn.mono (by omega)
    · exact (hm d hd).mono (by omega)

/-- A delta node whose alternatives all give its value. -/
theorem Sound.of_delta {k base : K} {patch : P} {skips : List (K × P)} {accepts : V → Bool}
    {b v : V} (h : look k = some (.delta base patch skips accepts))
    (hbase : Sound apply look base b) (hpatch : apply b patch = some v) (haccepts : accepts v)
    (hskip : ∀ q ∈ skips, ∃ w, Sound apply look q.1 w ∧ apply w q.2 = some v) :
    Sound apply look k v := by
  classical
  let skipValue (q : K × P) : V := if hq : q ∈ skips then (hskip q hq).choose else b
  have hvalue (q : K × P) (hq : q ∈ skips) :
      Sound apply look q.1 (skipValue q) ∧ apply (skipValue q) q.2 = some v := by
    have hspec := (hskip q hq).choose_spec
    simpa only [skipValue, dif_pos hq] using hspec
  exact .delta skipValue h hbase hpatch haccepts (fun q hq => (hvalue q hq).1)
    (fun q hq => (hvalue q hq).2)

/-- Every node is kept or replaced by its own value. -/
def Refines (apply : V → P → Option V) (look look' : K → Option (Node K P V)) : Prop :=
  ∀ k n, look k = some n →
    look' k = some n ∨ ∃ v, look' k = some (.cell v) ∧ Resolves apply look k v

theorem Sound.refine (hr : Refines apply look look') {k : K} {v : V}
    (h : Sound apply look k v) : Sound apply look' k v := by
  induction h with
  | @cell k v h =>
    rcases hr k _ h with hk | ⟨w, hk, hw⟩
    · exact .cell hk
    · rw [(Resolves.cell h).functional hw]
      exact .cell hk
  | @delta k base patch skips accepts b v skipValue h hbase hpatch haccepts hskip hskipPatch ih
      ihskip =>
    rcases hr k _ h with hk | ⟨w, hk, hw⟩
    · exact .delta skipValue hk ih hpatch haccepts ihskip hskipPatch
    · have hv : Resolves apply look k v := .delta h hbase.resolves hpatch haccepts
      rw [hv.functional hw]
      exact .cell hk

theorem Resolves.refine (hr : Refines apply look look') {k : K} {v : V}
    (h : Resolves apply look k v) : Resolves apply look' k v := by
  induction h with
  | @cell k v h =>
    rcases hr k _ h with hk | ⟨w, hk, hw⟩
    · exact .cell hk
    · rw [(Resolves.cell h).functional hw]
      exact .cell hk
  | @delta k base patch skips accepts b v h hbase hpatch haccepts ih =>
    rcases hr k _ h with hk | ⟨w, hk, hw⟩
    · exact .delta hk ih hpatch haccepts
    · have hv : Resolves apply look k v := .delta h hbase hpatch haccepts
      rw [hv.functional hw]
      exact .cell hk

/-- A key keeps its value in a part of the store that holds the bases of its keys, without
their alternatives. -/
theorem Resolves.restrict {keep : K → Prop}
    (hlook : ∀ k, keep k → look' k = (look k).map Node.dropSkips)
    (hclosed : ∀ k base patch skips accepts, keep k →
      look k = some (.delta base patch skips accepts) → keep base)
    {k : K} {v : V} (h : Resolves apply look k v) (hk : keep k) : Resolves apply look' k v := by
  induction h with
  | @cell k v h => exact .cell (by rw [hlook k hk, h]; rfl)
  | @delta k base patch skips accepts b v h _ hpatch haccepts ih =>
    exact .delta (by rw [hlook k hk, h]; rfl) (ih (hclosed k base patch skips accepts hk h)) hpatch
      haccepts

/-- The keys on the base chain of a key. -/
inductive Ancestor (look : K → Option (Node K P V)) : K → K → Prop
  | refl (k : K) : Ancestor look k k
  | step {k base a : K} {patch : P} {skips : List (K × P)} {accepts : V → Bool}
      (h : look k = some (.delta base patch skips accepts)) (ha : Ancestor look base a) :
      Ancestor look k a

theorem Sound.of_ancestor {k a : K} {v : V} (h : Sound apply look k v)
    (ha : Ancestor look k a) : ∃ w, Sound apply look a w := by
  induction ha generalizing v with
  | refl => exact ⟨v, h⟩
  | step hk _ ih =>
    cases h with
    | cell h' => simp [hk] at h'
    | delta _ h' hbase =>
      rw [hk] at h'
      cases h'
      exact ih hbase

/-- Every node is kept or given other alternatives: patches against ancestors of its base
that give its value. -/
def Reskips (apply : V → P → Option V) (look look' : K → Option (Node K P V)) : Prop :=
  ∀ k n, look k = some n → look' k = some n ∨
    ∃ base patch skips skips' accepts, n = .delta base patch skips accepts ∧
      look' k = some (.delta base patch skips' accepts) ∧
      ∀ v, Resolves apply look k v → ∀ q ∈ skips',
        Ancestor look base q.1 ∧ ∃ w, Resolves apply look q.1 w ∧ apply w q.2 = some v

theorem Resolves.reskip (hr : Reskips apply look look') {k : K} {v : V}
    (h : Resolves apply look k v) : Resolves apply look' k v := by
  induction h with
  | @cell k v h =>
    rcases hr k _ h with hk | ⟨_, _, _, _, _, hn, -⟩
    · exact .cell hk
    · cases hn
  | @delta k base patch skips accepts b v h _ hpatch haccepts ih =>
    rcases hr k _ h with hk | ⟨_, _, _, _, _, hn, hk, -⟩
    · exact .delta hk ih hpatch haccepts
    · cases hn
      exact .delta hk ih hpatch haccepts

theorem Ancestor.reskip (hr : Reskips apply look look') {k a : K} (h : Ancestor look k a) :
    Ancestor look' k a := by
  induction h with
  | refl k => exact .refl k
  | @step k _ _ _ _ _ h _ ih =>
    rcases hr k _ h with hk | ⟨_, _, _, _, _, hn, hk, -⟩
    · exact .step hk ih
    · cases hn
      exact .step hk ih

theorem Sound.reskip (hr : Reskips apply look look') {k : K} {v : V}
    (h : Sound apply look k v) : Sound apply look' k v := by
  induction h with
  | @cell k v h =>
    rcases hr k _ h with hk | ⟨_, _, _, _, _, hn, -⟩
    · exact .cell hk
    · cases hn
  | @delta k base patch skips accepts b v skipValue h hbase hpatch haccepts hskip hskipPatch ih
      ihskip =>
    rcases hr k _ h with hk | ⟨_, _, _, skips', _, hn, hk, hnew⟩
    · exact .delta skipValue hk ih hpatch haccepts ihskip hskipPatch
    · cases hn
      refine .of_delta hk ih hpatch haccepts fun q hq => ?_
      obtain ⟨hanc, w, hw, hqv⟩ := hnew v (.delta h hbase.resolves hpatch haccepts) q hq
      obtain ⟨w', hw'⟩ := ih.of_ancestor (hanc.reskip hr)
      rw [hw'.resolves.functional (hw.reskip hr)] at hw'
      exact ⟨w, hw', hqv⟩

end

end SkeinDB.Delta
