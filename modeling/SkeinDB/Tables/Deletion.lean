import SkeinDB.Tables.Lifetime
import SkeinDB.Tables.Forgotten

/-!
# Deleted data

In every run of writes in which no vector insertion names a key that has only a deleted row, what
the live rows show was given to their keys after these last lost a row, and a row that is inserted
under such a key is inserted as under a new one.
-/
namespace SkeinDB.Tables
open SkeinDB.Transition

section Deletion
variable {ext : Externals} {key : TableKey} {t : Table}

/-- To an insertion, a key with a deleted row is one that the table never had. -/
structure AsIfNew (ext : Externals) (key : TableKey) (t : Table) : Prop where
  insert : ∀ (st : Stamp) (k : String) (rows : List RowObject) (returning : Option (List String)),
    t.liveAt k = none → SameRun (Forgets k) Eq (insertRows st key rows returning t)
      (insertRows st key rows returning (t.forget k))
  merge : ∀ (st : Stamp) (m : MergeApplyParams) (policy : MergePolicy), st.ext = ext →
    m.ByColumn → m.policy = .ok policy → m.namesDeleted ext.text t →
      MergedAlike (mergeTable st key m policy t)
        (mergeTable st key m policy (t.forget (ext.text m.pk)))

theorem asIfNew (ext : Externals) (key : TableKey) (t : Table) : AsIfNew ext key t where
  insert _ _ rows returning hdead := insertRows_forgets rows returning (.inr ⟨rfl, hdead⟩)
  merge st m policy hst hby hpolicy hnamed := by
    subst hst
    obtain ⟨value, columns, hmerge, hcolumns⟩ := hby policy hpolicy
    obtain ⟨idx, entry, hentry, hdel⟩ := hnamed
    exact mergeTable_forgets hentry hdel hmerge hcolumns

/-- Deleted data stays deleted. -/
theorem deleted_stays_deleted (ext : Externals) (key : TableKey) (x : Traced) (calls : List Call)
    (hstart : x.Sound ext key) (hclean : Meets (Traced.step ext key) (Call.Clean ext key) x calls) :
    Always (Traced.step ext key) (fun x => ∃ t, x.engine.tableOf ext.text key = some t ∧
      Fresh ext.text t x.given ∧ AsIfNew ext key t) x calls := by
  refine keeps_sound.always hstart hclean ?_
  rintro x ⟨t, ht, -, hfresh⟩
  exact ⟨t, ht, hfresh, asIfNew ext key t⟩

def everyRow : Filter where
  predicate _ _ := .ok true

def plainCall (write : Write) : Call := ⟨{}, fun _ => 7, write⟩

theorem deleted_stays_deleted_sample :
    Always (Traced.step sampleExternals sampleKey) (fun x => ∃ t,
      x.engine.tableOf sampleText sampleKey = some t ∧ Fresh sampleText t x.given ∧
        AsIfNew sampleExternals sampleKey t) ⟨sampleEngine, fun _ => ∅⟩
      [plainCall (.data (.insert [sampleRow 1] none)), plainCall (.data (.delete everyRow)),
        plainCall (.data (.insert [sampleRow 1] none))] := by
  refine deleted_stays_deleted sampleExternals sampleKey _ _ ⟨⟨sampleSchema, .empty⟩, rfl, ?_, ?_⟩ ?_
  · intro i entry hentry
    cases hentry
  · intro i key entry _ hentry
    cases hentry
  · refine ⟨⟨trivial, fun _ _ => trivial⟩, fun _ _ => ⟨⟨trivial, fun _ _ => trivial⟩, fun _ _ =>
      ⟨⟨trivial, fun _ _ => trivial⟩, fun _ _ => trivial⟩⟩⟩

/-- A row with a name and an embedding under the key 1. -/
def draftRow : RowObject :=
  ((sampleRow 1).insert "name" (.str "draft")).insert "emb" (.embedding 1 [0] none)

def draftSchema : TableSchema where
  columns := [⟨"id", "u64", false, false⟩, ⟨"name", "str", true, false⟩,
    ⟨"emb", "embedding", true, false⟩]
  primaryKey := ["id"]

def draftEngine : Engine where
  catalog := AList.insert "shop" (AList.insert "orders" draftSchema ∅) ∅
  tables := Function.update (fun _ => none) sampleKey (some (TableData.empty.pushRow
    (sampleText [.u64 1]) ⟨draftRow, 1, 1, false, 5⟩))

/-- The row is deleted, and its embedding is then inserted anew. -/
def revivingCalls : List Call :=
  [plainCall (.data (.delete everyRow)),
    plainCall (.data (.vectorInsert ⟨"emb", [⟨[.u64 1], .embedding 1 [0] none⟩], true⟩))]

theorem draft_keyAt {t : Table} {i : ℕ} {entry : RowEntry} {key : String}
    (hrows : t.data.rows = [entry]) (hkey : t.keyAt sampleText i = some key) :
    i = 0 ∧ entry.deleted = false := by
  obtain ⟨found, hfound, hlive⟩ := keyAt_eq_some.mp hkey
  rw [hrows] at hfound
  cases i with
  | zero =>
    cases hfound
    exact ⟨rfl, live_of_key hlive⟩
  | succ i => cases hfound

/-- The name of the deleted row shows again: nobody gave it to the key since. -/
theorem vector_revives_deleted_row :
    Traced.Sound sampleExternals sampleKey
        ⟨draftEngine, fun _ => {cell | draftRow cell.1 = some cell.2}⟩ ∧
      ¬ Always (Traced.step sampleExternals sampleKey) (fun x => ∃ t,
        x.engine.tableOf sampleText sampleKey = some t ∧ Fresh sampleText t x.given ∧
          AsIfNew sampleExternals sampleKey t)
        ⟨draftEngine, fun _ => {cell | draftRow cell.1 = some cell.2}⟩ revivingCalls := by
  refine ⟨⟨_, rfl, ?_, ?_⟩, fun h => ?_⟩
  · intro i entry hentry hlive
    cases i with
    | zero =>
      cases hentry
      exact ⟨sampleText [.u64 1], rfl, rfl⟩
    | succ i => cases hentry
  · intro i key entry hkey hentry c v hv
    cases i with
    | zero =>
      cases hentry
      exact hv
    | succ i => cases hentry
  · obtain ⟨t, ht, hfresh, -⟩ := h revivingCalls [] (List.append_nil _).symm _ rfl
    cases ht
    have hgiven := hfresh 0 (sampleText [.u64 1]) _ rfl rfl "name" (.str "draft") rfl
    rcases hgiven with ⟨hbefore, -⟩ | ⟨i, entry, -, -, hkey, -, hwhere⟩
    · rcases hbefore with ⟨-, hkept⟩ | ⟨i, entry, -, -, hkey, -⟩
      · exact hkept ⟨0, rfl, fun hkey => by cases hkey⟩
      · obtain ⟨-, hlive⟩ := draft_keyAt rfl hkey
        cases hlive
    · obtain ⟨rfl, -⟩ := draft_keyAt rfl hkey
      rcases hwhere with hlt | ⟨key', hkey', -⟩ | hcolumn
      · exact absurd hlt (by decide)
      · cases hkey'
      · have hcolumn : ("name" : String) = "emb" := hcolumn
        exact absurd hcolumn (by decide)

end Deletion

end SkeinDB.Tables
