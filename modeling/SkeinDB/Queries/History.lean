import SkeinDB.Queries.TimeTravel
import SkeinDB.Tables.Lifetime

/-!
# Runs and the times at which they are read

Tables are written one call after another under a clock that does not go back, and a query asks
for their rows as of a time. Between two later moments its answer stays unless a row that was live
at the time is touched, as long as no deleted row is taken up and no row that came later is
deleted.
-/
namespace SkeinDB.Queries
open SkeinDB.Tables SkeinDB.Transition

/-- A call, with the table that it writes. -/
structure TableCall extends Call where
  key : TableKey

def TableCall.after (ext : Externals) (c : TableCall) (s : Engine) : Engine :=
  c.toCall.after ext c.key s

def afterCalls (ext : Externals) (calls : List TableCall) (s : Engine) : Engine :=
  calls.foldl (fun s c => c.after ext s) s

def Engine.rowsOf (text : LitsText) (key : TableKey) (s : Engine) : List RowEntry :=
  ((s.tableOf text key).map (·.data.rows)).getD []

/-- The edits that calls make to one table. -/
inductive History (ext : Externals) (key : TableKey) :
    Engine → List TableCall → List RowEdit → Engine → Prop
  | nil {s} : History ext key s [] [] s
  | own {s s' c cs t t' es fs hi} (hkey : c.key = key) (before : s.tableOf ext.text key = some t)
      (after : (c.after ext s).tableOf ext.text key = some t')
      (edits : Edited c.now 0 t.data.rows es t'.data.rows hi)
      (makes : ∀ e ∈ es, c.write.Makes ext.text t e)
      (rest : History ext key (c.after ext s) cs fs s') : History ext key s (c :: cs) (es ++ fs) s'
  | other {s s' c cs fs} (hkey : c.key ≠ key) (rest : History ext key (c.after ext s) cs fs s') :
      History ext key s (c :: cs) fs s'

/-- The clock does not go back, during a call or between two. -/
structure Clocks (calls : List TableCall) : Prop where
  within : ∀ c ∈ calls, Monotone c.now
  between : calls.Pairwise fun c c' => ∀ m n, c.now m ≤ c'.now n

section Runs
variable {ext : Externals} {key : TableKey} {s s' : Engine} {t : Table} {calls : List TableCall}
  {c : TableCall} {es : List RowEdit}

theorem TableCall.own (hby : c.write.ByColumn) (hkey : c.key = key)
    (ht : s.tableOf ext.text key = some t) : ∃ t' es hi,
      (c.after ext s).tableOf ext.text key = some t' ∧ SameDefinition t t' ∧
        Edited c.now 0 t.data.rows es t'.data.rows hi ∧ ∀ e ∈ es, c.write.Makes ext.text t e := by
  subst hkey
  obtain ⟨hi, hedits⟩ := @Write.part_edits ⟨ext, c.now, s.schemaVersionFor c.key⟩ c.key t
    c.write hby
  have hholds := @Write.holding _ c.io c.now _ _ _
    (fun t' => t.EditsTo c.now (c.write.Makes ext.text t) 0 t' hi)
    ⟨fun t' h => h.trans (editsTo_of_sameRows Table.sameRows_rebuild le_rfl)⟩ ht c.write hedits
    (hedits.1.residency.trans (resident_tableOf ht))
  obtain ⟨t', ht', hsame, es, hes, hmakes⟩ := hholds
  exact ⟨t', es, hi, ht', hsame, hes, hmakes⟩

theorem TableCall.other (hkey : c.key ≠ key) (ht : s.tableOf ext.text key = some t) :
    ∃ t', (c.after ext s).tableOf ext.text key = some t' ∧ t.SameRows t' :=
  frame_write (M := t.SameRows) ⟨fun _ h => h.trans Table.sameRows_rebuild⟩ (Ne.symm hkey) c.write
    c.io c.now s ⟨t, ht, .refl t⟩

theorem rowsOf_eq (ht : s.tableOf ext.text key = some t) :
    Engine.rowsOf ext.text key s = t.data.rows := by
  rw [Engine.rowsOf, ht]
  rfl

theorem History.chain (h : History ext key s calls es s') (ht : s.tableOf ext.text key = some t) :
    EditChain (Engine.rowsOf ext.text key s) es (Engine.rowsOf ext.text key s') := by
  induction h generalizing t with
  | nil => exact .nil
  | own hkey before after edits makes _ ih =>
    have hfirst := chain_of_edited edits
    rw [← rowsOf_eq before, ← rowsOf_eq after] at hfirst
    exact hfirst.append (ih after)
  | other hkey _ ih =>
    obtain ⟨t₁, ht₁, hsame⟩ := TableCall.other hkey ht
    have hrows := ih ht₁
    rwa [rowsOf_eq ht₁, hsame.rows, ← rowsOf_eq ht] at hrows

/-- The edits come in the order of their times, which are readings of the clocks. -/
theorem History.times (h : History ext key s calls es s') (hclocks : Clocks calls) :
    (es.map RowEdit.time).Pairwise (· ≤ ·) ∧ ∀ e ∈ es, ∃ c ∈ calls, ∃ n, e.time = c.now n := by
  induction h with
  | nil => exact ⟨.nil, fun e he => absurd he List.not_mem_nil⟩
  | @own s s' c cs t t' es fs hi hkey before after edits makes _ ih =>
    obtain ⟨hbetween, hrest⟩ := List.pairwise_cons.mp hclocks.between
    obtain ⟨hsorted, hreadings⟩ := ih
      ⟨fun c' hc' => hclocks.within c' (List.mem_cons_of_mem _ hc'), hrest⟩
    obtain ⟨hown, htimes⟩ := edits.times (hclocks.within c List.mem_cons_self)
    refine ⟨?_, fun e he => ?_⟩
    · rw [List.map_append, List.pairwise_append]
      refine ⟨hown, hsorted, fun time htime time' htime' => ?_⟩
      obtain ⟨e, he, rfl⟩ := List.mem_map.mp htime
      obtain ⟨f, hf, rfl⟩ := List.mem_map.mp htime'
      obtain ⟨-, n, hn⟩ := htimes e he
      obtain ⟨c', hc', m, hm⟩ := hreadings f hf
      rw [hn, hm]
      exact hbetween c' hc' n m
    · rcases List.mem_append.mp he with he | he
      · exact ⟨c, List.mem_cons_self, (htimes e he).2⟩
      · obtain ⟨c', hc', hreading⟩ := hreadings e he
        exact ⟨c', List.mem_cons_of_mem _ hc', hreading⟩
  | other hkey _ ih =>
    obtain ⟨-, hrest⟩ := List.pairwise_cons.mp hclocks.between
    obtain ⟨hsorted, hreadings⟩ := ih
      ⟨fun c' hc' => hclocks.within c' (List.mem_cons_of_mem _ hc'), hrest⟩
    refine ⟨hsorted, fun e he => ?_⟩
    obtain ⟨c', hc', hreading⟩ := hreadings e he
    exact ⟨c', List.mem_cons_of_mem _ hc', hreading⟩

end Runs

end SkeinDB.Queries
