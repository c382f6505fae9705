import SkeinDB.Tables.Table

/-!
# The rows that a secondary index lists

An index that is built from the rows of a table lists, under the text of some values, the positions
of the live rows that store these values, in ascending order.
-/
namespace SkeinDB.Tables
variable (text : LitsText)

/-- The rows that an index lists under a text. -/
def SecondaryIndex.listed (index : SecondaryIndex) (key : String) : List ℕ :=
  (index.keys key).getD []

/-- A live row has values in all columns, and their text is the key. -/
def storesKey (columns : List String) (key : String) (entry : RowEntry) : Bool :=
  !entry.deleted && (rowValues columns entry.row).map text == some key

def postKey (columns : List String) (keys : String → Option (List ℕ)) (slot : RowEntry × ℕ) :
    String → Option (List ℕ) :=
  if slot.1.deleted then keys
  else match rowValues columns slot.1.row with
    | none => keys
    | some values => pushPosting keys (text values) slot.2

theorem buildSecondaryIndex_keys (version : ℕ) (columns included : List String)
    (rows : List RowEntry) : (buildSecondaryIndex text version columns included rows).keys =
      rows.zipIdx.foldl (postKey text columns) fun _ => none := rfl

theorem postKey_getD (columns : List String) (keys : String → Option (List ℕ))
    (slot : RowEntry × ℕ) (key : String) :
    (postKey text columns keys slot key).getD [] = (keys key).getD [] ++
      if storesKey text columns key slot.1 then [slot.2] else [] := by
  rw [postKey, storesKey]
  split
  · rename_i hdeleted
    simp [hdeleted]
  · rename_i hlive
    rcases rowValues columns slot.1.row with _ | values
    · simp
    · by_cases hkey : key = text values
      · subst hkey
        simp [pushPosting, hlive]
      · simp [pushPosting, Function.update_of_ne hkey, Ne.symm hkey]

theorem foldl_postKey_getD (columns : List String) (slots : List (RowEntry × ℕ))
    (keys : String → Option (List ℕ)) (key : String) :
    (slots.foldl (postKey text columns) keys key).getD [] = (keys key).getD [] ++
      (slots.filter fun slot => storesKey text columns key slot.1).map (·.2) := by
  induction slots generalizing keys with
  | nil => simp
  | cons slot slots ih =>
    rw [List.foldl_cons, ih, postKey_getD, List.append_assoc]
    congr 1
    by_cases hslot : storesKey text columns key slot.1 = true
    · rw [if_pos hslot, List.filter_cons, if_pos hslot]
      rfl
    · rw [if_neg hslot, List.filter_cons, if_neg hslot]
      rfl

variable {text} {version : ℕ} {columns included : List String} {rows : List RowEntry}
  {key : String}

theorem listed_build : (buildSecondaryIndex text version columns included rows).listed key =
    (rows.zipIdx.filter fun slot => storesKey text columns key slot.1).map (·.2) := by
  rw [SecondaryIndex.listed, buildSecondaryIndex_keys, foldl_postKey_getD]
  rfl

theorem pairwise_listed_build :
    ((buildSecondaryIndex text version columns included rows).listed key).Pairwise (· < ·) := by
  rw [listed_build]
  refine List.Pairwise.sublist (List.filter_sublist.map _) ?_
  rw [List.zipIdx_map_snd]
  exact List.pairwise_lt_range'

theorem mem_listed_build {i : ℕ} :
    i ∈ (buildSecondaryIndex text version columns included rows).listed key ↔
      ∃ entry, rows[i]? = some entry ∧ storesKey text columns key entry = true := by
  rw [listed_build, List.mem_map]
  constructor
  · rintro ⟨⟨entry, j⟩, hslot, rfl⟩
    obtain ⟨hmem, hstores⟩ := List.mem_filter.mp hslot
    exact ⟨entry, List.mem_zipIdx_iff_getElem?.mp hmem, hstores⟩
  · rintro ⟨entry, hentry, hstores⟩
    exact ⟨(entry, i), List.mem_filter.mpr ⟨List.mem_zipIdx_iff_getElem?.mpr hentry, hstores⟩, rfl⟩

/-- The index lists what it would list if it were built from the rows, in whatever order. -/
def SecondaryIndex.Exact (text : LitsText) (rows : List RowEntry) (index : SecondaryIndex) : Prop :=
  ∀ key, (index.listed key).Perm ((buildSecondaryIndex text index.builtVersion index.columns
    index.included rows).listed key)

theorem exact_build : (buildSecondaryIndex text version columns included rows).Exact text rows :=
  fun _ => .refl _

namespace SecondaryIndex
variable {index : SecondaryIndex}

theorem Exact.nodup (h : index.Exact text rows) : (index.listed key).Nodup :=
  (h key).nodup_iff.mpr (pairwise_listed_build.imp Nat.ne_of_lt)

theorem Exact.mem (h : index.Exact text rows) {i : ℕ} : i ∈ index.listed key ↔
    ∃ entry, rows[i]? = some entry ∧ storesKey text index.columns key entry = true := by
  rw [(h key).mem_iff, mem_listed_build]

end SecondaryIndex

namespace Table
variable {t : Table} {index : SecondaryIndex}

/-- Registering builds an index or leaves the one that is there. -/
theorem register_cases {name : String}
    (h : (t.registerSecondaryIndex text columns included).data.secondaryIndexes name = some index) :
    t.data.secondaryIndexes name = some index ∨
      index = buildSecondaryIndex text t.schema.tableVersion columns included t.data.rows := by
  have hbuilt : Function.update t.data.secondaryIndexes (secondaryIndexKey columns included)
      (some (buildSecondaryIndex text t.schema.tableVersion columns included t.data.rows)) name =
        some index → t.data.secondaryIndexes name = some index ∨
      index = buildSecondaryIndex text t.schema.tableVersion columns included t.data.rows := by
    intro hupdate
    by_cases hname : name = secondaryIndexKey columns included
    · subst hname
      rw [Function.update_self] at hupdate
      exact .inr (Option.some.inj hupdate).symm
    · rw [Function.update_of_ne hname] at hupdate
      exact .inl hupdate
  unfold registerSecondaryIndex at h
  dsimp only at h
  split at h
  · exact hbuilt h
  · split at h
    · exact hbuilt h
    · exact .inl h

theorem foldl_register_cases (indexes : List CompatIndexDef) {name : String}
    (h : (indexes.foldl (fun t index => t.registerSecondaryIndex text index.columns [])
      t).data.secondaryIndexes name = some index) :
    t.data.secondaryIndexes name = some index ∨ ∃ columns,
      index = buildSecondaryIndex text t.schema.tableVersion columns [] t.data.rows := by
  induction indexes generalizing t with
  | nil => exact .inl h
  | cons first indexes ih =>
    have hsame := @sameRows_register text t first.columns []
    rcases ih h with h | ⟨columns, h⟩
    · rcases register_cases h with h | h
      · exact .inl h
      · exact .inr ⟨_, h⟩
    · rw [hsame.schema, hsame.rows] at h
      exact .inr ⟨columns, h⟩

/-- Every index is current after the rebuild: it was, or it is built from the rows. -/
theorem rebuild_cases {name : String}
    (h : (t.rebuildSecondaryIndexesIfStale text).data.secondaryIndexes name = some index) :
    (t.data.secondaryIndexes name = some index ∧ index.builtVersion = t.schema.tableVersion) ∨
      ∃ columns included,
        index = buildSecondaryIndex text t.schema.tableVersion columns included t.data.rows := by
  have hsame := @sameRows_ensure text t
  obtain ⟨old, hold, rfl⟩ := Option.map_eq_some_iff.mp h
  rw [hsame.schema, hsame.rows]
  split
  · exact .inr ⟨_, _, rfl⟩
  · rename_i hversion
    rcases foldl_register_cases t.schema.compatIndexes hold with hold | ⟨columns, hold⟩
    · exact .inl ⟨hold, not_not.mp hversion⟩
    · exact .inr ⟨columns, [], hold⟩

/-- Every index whose version is that of the table lists what it should. -/
def IndexesExact (text : LitsText) (t : Table) : Prop :=
  ∀ name index, t.data.secondaryIndexes name = some index →
    index.builtVersion = t.schema.tableVersion → index.Exact text t.data.rows

theorem IndexesExact.rebuild (h : t.IndexesExact text) {name : String}
    (hindex : (t.rebuildSecondaryIndexesIfStale text).data.secondaryIndexes name = some index) :
    index.Exact text t.data.rows := by
  rcases rebuild_cases hindex with ⟨hold, hversion⟩ | ⟨columns, included, rfl⟩
  · exact h name index hold hversion
  · exact exact_build

end Table

end SkeinDB.Tables
