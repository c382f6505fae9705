import SkeinDB.Queries.Select
import SkeinDB.Search.Comparison
import SkeinDB.Search.FloatOrder

/-!
# ORDER BY

`compare_order` compares key vectors by `cmp_lit`, column by column. It sorts the rows of every
SELECT over some literals exactly if `cmp_lit` orders the literals of each column. Whether it does
depends on their classes: integers and booleans are ordered, and so are floats with booleans,
texts with booleans, and strings with texts; any other two classes in one column are not.
-/
namespace SkeinDB.Queries
open SkeinDB.Tables SkeinDB.Search

variable (fmt : Formats) {X : Type}

/-- The rows with their key vectors in the order that the sort of a SELECT gives them. -/
def sortRows (order : List (OrderBy X)) (items : List (List Lit × List Lit)) :
    List (List Lit × List Lit) :=
  items.mergeSort fun a b => compareOrder fmt order a.1 b.1 != .gt

/-- The comparison is a total preorder on the key vectors, and the sort gives a permutation of the
rows in which none comes before one that compares less. -/
structure SortsRows (order : List (OrderBy X)) (items : List (List Lit × List Lit)) : Prop where
  consistent : ConsistentOn (compareOrder fmt order) {key | key ∈ items.map (·.1)}
  perm : (sortRows fmt order items).Perm items
  sorted : (sortRows fmt order items).Pairwise fun a b => compareOrder fmt order a.1 b.1 ≠ .gt

/-- A key vector, as an ORDER BY clause evaluates it, with the literals of its columns. -/
def KeyOver (columns : List (Set Lit)) (key : List Lit) : Prop :=
  List.Forall₂ (fun K lit => lit ∈ K) columns key

section Floats
variable {x y : Float}

theorem partialCmp_rank (hx : x.isNaN = false) (hy : y.isNaN = false) :
    partialCmp x y = some (compare (floatRank x) (floatRank y)) := by
  have hswap : compare (floatRank y) (floatRank x) = (compare (floatRank x) (floatRank y)).swap :=
    Std.OrientedOrd.eq_swap
  rw [partialCmp]
  simp only [lt_iff_rank hx hy, lt_iff_rank hy hx, beq_iff_rank hx hy, hswap]
  cases compare (floatRank x) (floatRank y) <;> rfl

theorem partialCmp_isNaN (h : x.isNaN = true ∨ y.isNaN = true) :
    (partialCmp x y).getD .eq = .eq := by
  rw [partialCmp, if_neg (not_lt_of_isNaN h), if_neg (not_lt_of_isNaN h.symm)]
  split_ifs <;> rfl

theorem partialCmp_self (x : Float) : (partialCmp x x).getD .eq = .eq := by
  rcases hx : x.isNaN with _ | _
  · rw [partialCmp_rank hx hx, Std.ReflOrd.compare_self]
    rfl
  · exact partialCmp_isNaN (.inl hx)

end Floats

section Columns
variable {fmt}

theorem cmpMixed_self (a : Lit) : cmpMixed fmt a a = .eq := by
  rw [cmpMixed]
  rcases litToF64 fmt a with _ | x
  · rcases litToStringForLike fmt a with _ | text
    · rfl
    · exact Std.ReflOrd.compare_self
  · exact partialCmp_self x

theorem cmpLit_self (a : Lit) : cmpLit fmt a a = .eq := by
  have hmixed := @cmpMixed_self fmt a
  cases a with
  | bool v => exact Std.ReflOrd.compare_self
  | i64 v => exact Std.ReflOrd.compare_self
  | u64 v => exact Std.ReflOrd.compare_self
  | f64 v => exact partialCmp_self v
  | str v => exact Std.ReflOrd.compare_self
  | _ => exact hmixed

/-- The comparison of one column. -/
def cmpColumn (fmt : Formats) (ob : OrderBy X) (a b : Lit) : Ordering :=
  if ob.dir.getD .asc = .asc then cmpLit fmt a b else (cmpLit fmt a b).swap

theorem compareOrder_cons (ob : OrderBy X) (order : List (OrderBy X)) (a b : List Lit) :
    compareOrder fmt (ob :: order) a b =
      (cmpColumn fmt ob (a.headD .null) (b.headD .null)).then
        (compareOrder fmt order a.tail b.tail) := by
  rw [compareOrder, cmpColumn]
  generalize (if ob.dir.getD .asc = .asc then cmpLit fmt (a.headD .null) (b.headD .null)
    else (cmpLit fmt (a.headD .null) (b.headD .null)).swap) = ord
  cases ord <;> rfl

theorem cmpColumn_self (ob : OrderBy X) (a : Lit) : cmpColumn fmt ob a a = .eq := by
  rw [cmpColumn, cmpLit_self]
  split_ifs <;> rfl

theorem compareOrder_self (order : List (OrderBy X)) (key : List Lit) :
    compareOrder fmt order key key = .eq := by
  induction order generalizing key with
  | nil => rfl
  | cons ob order ih =>
    rw [compareOrder_cons, cmpColumn_self, ih]
    rfl

theorem cmpColumn_consistent_iff (ob : OrderBy X) (K : Set Lit) :
    ConsistentOn (cmpColumn fmt ob) K ↔ ConsistentOn (cmpLit fmt) K := by
  by_cases hasc : ob.dir.getD .asc = .asc
  · have heq : cmpColumn fmt ob = cmpLit fmt := by
      funext a b
      rw [cmpColumn, if_pos hasc]
    rw [heq]
  · have heq : cmpColumn fmt ob = fun a b => (cmpLit fmt a b).swap := by
      funext a b
      rw [cmpColumn, if_neg hasc]
    rw [heq]
    refine ⟨fun h => h.reverse.congr fun a _ b _ => ?_, ConsistentOn.reverse⟩
    rw [Ordering.swap_swap]

variable {columns : List (Set Lit)} {order : List (OrderBy X)}

theorem compareOrder_consistent (hlen : order.length = columns.length)
    (h : ∀ K ∈ columns, ConsistentOn (cmpLit fmt) K) :
    ConsistentOn (compareOrder fmt order) {key | KeyOver columns key} := by
  induction order generalizing columns with
  | nil => exact ⟨fun _ _ => rfl, fun _ _ _ _ => rfl, fun _ _ _ _ _ _ _ _ => rfl⟩
  | cons ob order ih =>
    rcases columns with _ | ⟨K, columns⟩
    · cases hlen
    obtain ⟨hfirst, hrest⟩ := List.forall_mem_cons.mp h
    have hhead : ∀ key ∈ {key | KeyOver (K :: columns) key}, key.headD .null ∈ K := by
      rintro key (_ | ⟨hlit, -⟩)
      exact hlit
    have htail : ∀ key ∈ {key | KeyOver (K :: columns) key}, KeyOver columns key.tail := by
      rintro key (_ | ⟨-, hkey⟩)
      exact hkey
    have hcolumn := (cmpColumn_consistent_iff ob K).mpr hfirst
    refine ((hcolumn.comap hhead).refine ((ih (Nat.succ_inj.mp hlen) hrest).comap htail)).congr ?_
    exact fun a _ b _ => compareOrder_cons ob order a b

theorem exists_keyOver (hne : ∀ K ∈ columns, K.Nonempty) : ∃ key, KeyOver columns key := by
  induction columns with
  | nil => exact ⟨[], .nil⟩
  | cons K columns ih =>
    obtain ⟨⟨lit, hlit⟩, hrest⟩ := List.forall_mem_cons.mp hne
    obtain ⟨key, hkey⟩ := ih hrest
    exact ⟨lit :: key, .cons hlit hkey⟩

/-- An order of the key vectors orders the literals of each column. -/
theorem cmpLit_consistent (hlen : order.length = columns.length)
    (hne : ∀ K ∈ columns, K.Nonempty)
    (h : ConsistentOn (compareOrder fmt order) {key | KeyOver columns key}) :
    ∀ K ∈ columns, ConsistentOn (cmpLit fmt) K := by
  induction order generalizing columns with
  | nil =>
    rcases columns with _ | ⟨K, columns⟩
    · simp
    · cases hlen
  | cons ob order ih =>
    rcases columns with _ | ⟨K, columns⟩
    · cases hlen
    obtain ⟨⟨lit, hlit⟩, hrest⟩ := List.forall_mem_cons.mp hne
    obtain ⟨key, hkey⟩ := exists_keyOver hrest
    refine List.forall_mem_cons.mpr ⟨?_, ih (Nat.succ_inj.mp hlen) hrest ?_⟩
    · have hlits : ∀ a ∈ K, a :: key ∈ {key | KeyOver (K :: columns) key} :=
        fun a ha => .cons ha hkey
      refine (cmpColumn_consistent_iff ob K).mp ((h.comap hlits).congr fun a _ b _ => ?_)
      rw [compareOrder_cons, List.tail_cons, List.tail_cons, compareOrder_self, List.headD_cons,
        List.headD_cons]
      cases cmpColumn fmt ob a b <;> rfl
    · have hkeys : ∀ k ∈ {key | KeyOver columns key}, lit :: k ∈ {key | KeyOver (K :: columns) key} :=
        fun k hk => .cons hlit hk
      refine (h.comap hkeys).congr fun a _ b _ => ?_
      rw [compareOrder_cons, List.headD_cons, List.headD_cons, cmpColumn_self]
      rfl

theorem sortsRows_of_consistent {items : List (List Lit × List Lit)} {keys : Set (List Lit)}
    (h : ConsistentOn (compareOrder fmt order) keys) (hitems : ∀ item ∈ items, item.1 ∈ keys) :
    SortsRows fmt order items := by
  have hsort := (h.comap (f := Prod.fst) (r := {item | item ∈ items}) hitems).mergeSort
  refine ⟨h.mono ?_, hsort.1, hsort.2⟩
  intro key hkey
  obtain ⟨item, hitem, rfl⟩ := List.mem_map.mp hkey
  exact hitems item hitem

theorem consistent_of_sortsRows {keys : Set (List Lit)}
    (h : ∀ items : List (List Lit × List Lit), (∀ item ∈ items, item.1 ∈ keys) →
      SortsRows fmt order items) : ConsistentOn (compareOrder fmt order) keys := by
  have hlist : ∀ list : List (List Lit), (∀ key ∈ list, key ∈ keys) →
      ConsistentOn (compareOrder fmt order) {key | key ∈ list} := by
    intro list hlist
    have hsorts := h (list.map fun key => (key, [])) fun item hitem => by
      obtain ⟨key, hkey, rfl⟩ := List.mem_map.mp hitem
      exact hlist key hkey
    refine hsorts.consistent.mono fun key hkey => ?_
    simpa using hkey
  refine ⟨fun a ha => ?_, fun a ha b hb => ?_, fun a ha b hb c hc => ?_⟩
  · exact (hlist [a] (by simpa using ha)).refl a (by simp)
  · exact (hlist [a, b] (by simp [ha, hb])).swap a (by simp) b (by simp)
  · exact (hlist [a, b, c] (by simp [ha, hb, hc])).trans a (by simp) b (by simp) c (by simp)

/-- An ORDER BY clause sorts the rows of every SELECT exactly if the literals of each column are
ordered. -/
theorem sortsRows_iff_consistent (hlen : order.length = columns.length)
    (hne : ∀ K ∈ columns, K.Nonempty) :
    (∀ items : List (List Lit × List Lit), (∀ item ∈ items, KeyOver columns item.1) →
        SortsRows fmt order items) ↔ ∀ K ∈ columns, ConsistentOn (cmpLit fmt) K :=
  ⟨fun h => cmpLit_consistent hlen hne (consistent_of_sortsRows h),
    fun h _ hitems => sortsRows_of_consistent (compareOrder_consistent hlen h) hitems⟩

end Columns

section Kinds
variable {fmt} {a b c : Lit} {K : Set Lit}

/-- A literal without a text, which compares as equal to every other one. -/
def Incomparable (fmt : Formats) (lit : Lit) : Prop := litToStringForLike fmt lit = none

theorem incomparable_iff : Incomparable fmt a ↔
    a = .null ∨ ∃ dims v model, a = .embedding dims v model := by
  constructor
  · intro h
    cases a with
    | null => exact Or.inl rfl
    | embedding dims v model => exact Or.inr ⟨dims, v, model, rfl⟩
    | _ => cases h
  · rintro (rfl | ⟨dims, v, model, rfl⟩) <;> rfl

theorem cmpMixed_of_text (hf64 : litToF64 fmt a = none ∨ litToF64 fmt b = none) :
    cmpMixed fmt a b = match litToStringForLike fmt a, litToStringForLike fmt b with
      | some x, some y => compare x y
      | _, _ => .eq := by
  rw [cmpMixed]
  rcases hf64 with ha | hb
  · generalize litToF64 fmt a = x at ha ⊢
    subst ha
    cases litToF64 fmt b <;> rfl
  · generalize litToF64 fmt b = y at hb ⊢
    subst hb
    cases litToF64 fmt a <;> rfl

/-- A literal that is no number compares by its text. -/
theorem cmpLit_of_text (hf64 : litToF64 fmt a = none ∨ litToF64 fmt b = none) :
    cmpLit fmt a b = match litToStringForLike fmt a, litToStringForLike fmt b with
      | some x, some y => compare x y
      | _, _ => .eq := by
  by_cases hstr : ∃ x y, a = .str x ∧ b = .str y
  · obtain ⟨x, y, rfl, rfl⟩ := hstr
    rfl
  rw [← cmpMixed_of_text hf64]
  rcases hf64 with ha | hb
  · cases a with
    | bool => cases ha
    | i64 => cases ha
    | u64 => cases ha
    | f64 => cases ha
    | str x =>
      cases b with
      | str y => exact absurd ⟨x, y, rfl, rfl⟩ hstr
      | _ => rfl
    | _ => cases b <;> rfl
  · cases b with
    | bool => cases hb
    | i64 => cases hb
    | u64 => cases hb
    | f64 => cases hb
    | str y =>
      cases a with
      | str x => exact absurd ⟨x, y, rfl, rfl⟩ hstr
      | _ => rfl
    | _ => cases a <;> rfl

theorem cmpLit_incomparable (h : Incomparable fmt a ∨ Incomparable fmt b) :
    cmpLit fmt a b = .eq := by
  have hf64 {lit : Lit} (hlit : Incomparable fmt lit) : litToF64 fmt lit = none := by
    rcases incomparable_iff.mp hlit with rfl | ⟨dims, v, model, rfl⟩ <;> rfl
  rw [cmpLit_of_text (h.imp hf64 hf64)]
  rcases h with h | h
  · rw [show litToStringForLike fmt a = none from h]
  · rw [show litToStringForLike fmt b = none from h]
    cases litToStringForLike fmt a <;> rfl

/-- A number that is no integer. -/
inductive FloatKind : Lit → Prop
  | f64 (v : Float) : FloatKind (.f64 v)
  | dec (v : String) : FloatKind (.dec v)

theorem cmpLit_of_floats (h : FloatKind a ∨ FloatKind b) {x y : Float}
    (ha : litToF64 fmt a = some x) (hb : litToF64 fmt b = some y) :
    cmpLit fmt a b = (partialCmp x y).getD .eq := by
  have hmixed : cmpLit fmt a b = cmpMixed fmt a b := by
    rcases h with (⟨v⟩ | ⟨v⟩) | (⟨v⟩ | ⟨v⟩)
    · cases b <;> rfl
    · cases b <;> rfl
    · cases a <;> rfl
    · cases a <;> rfl
  rw [hmixed, cmpMixed, ha, hb]

/-- The classes of literals that `cmp_lit` tells apart. Decimals and floats belong together, strings
do not join the numbers, as two of them compare as texts. -/
inductive KeyClass
  | null
  | nan
  | bool
  | int
  | num
  | str
  | text
  deriving DecidableEq

def numberClass (x : Float) : KeyClass := if x.isNaN then .nan else .num

def keyClass (fmt : Formats) : Lit → KeyClass
  | .null => .null
  | .embedding _ _ _ => .null
  | .bool _ => .bool
  | .i64 _ => .int
  | .u64 _ => .int
  | .f64 v => numberClass v
  | .dec v => ((fmt.parseF64 v).map numberClass).getD .text
  | .str _ => .str
  | _ => .text

def classLits (fmt : Formats) (C : Set KeyClass) : Set Lit := {lit | keyClass fmt lit ∈ C}

/-- The classes that may stand in one column. -/
inductive Sortable (C : Set KeyClass) : Prop
  | unordered (h : C ⊆ {.null, .nan})
  | ints (h : C ⊆ {.bool, .int})
  | nums (h : C ⊆ {.bool, .num})
  | flags (h : C ⊆ {.bool, .text})
  | strs (h : C ⊆ {.str, .text})

/-- What the class of a literal says about it. -/
inductive Classified (fmt : Formats) : Lit → KeyClass → Prop
  | null {a : Lit} (h : Incomparable fmt a) : Classified fmt a .null
  | nan {a : Lit} {x : Float} (hkind : FloatKind a) (hx : litToF64 fmt a = some x)
    (hnan : x.isNaN = true) : Classified fmt a .nan
  | bool (v : Bool) : Classified fmt (.bool v) .bool
  | i64 (v : ℤ) : Classified fmt (.i64 v) .int
  | u64 (v : ℕ) : Classified fmt (.u64 v) .int
  | num {a : Lit} {x : Float} (hkind : FloatKind a) (hx : litToF64 fmt a = some x)
    (hnum : x.isNaN = false) : Classified fmt a .num
  | str (v : String) : Classified fmt (.str v) .str
  | text {a : Lit} {text : String} (hf64 : litToF64 fmt a = none)
    (htext : litToStringForLike fmt a = some text) : Classified fmt a .text

theorem Classified.number {x : Float} (hkind : FloatKind a) (hx : litToF64 fmt a = some x) :
    Classified fmt a (numberClass x) := by
  rw [numberClass]
  split_ifs with hnan
  · exact .nan hkind hx hnan
  · exact .num hkind hx (by simpa using hnan)

theorem classified (fmt : Formats) (a : Lit) : Classified fmt a (keyClass fmt a) := by
  cases a with
  | null => exact .null rfl
  | embedding dims v model => exact .null rfl
  | bool v => exact .bool v
  | i64 v => exact .i64 v
  | u64 v => exact .u64 v
  | f64 v => exact .number (.f64 v) rfl
  | dec v =>
    rw [keyClass]
    rcases hparse : fmt.parseF64 v with _ | x
    · exact .text hparse rfl
    · exact .number (.dec v) hparse
  | str v => exact .str v
  | _ => exact .text rfl rfl

/-- The value of an integer or of a boolean. -/
def intValue : Lit → ℤ
  | .bool v => if v then 1 else 0
  | .i64 v => v
  | .u64 v => v
  | _ => 0

theorem cmpLit_ints (ha : keyClass fmt a ∈ ({.bool, .int} : Set KeyClass))
    (hb : keyClass fmt b ∈ ({.bool, .int} : Set KeyClass)) :
    cmpLit fmt a b = compare (intValue a) (intValue b) := by
  have hleft (v : Bool) (n : ℤ) : (partialCmp (if v then 1 else 0) (Float.ofInt n)).getD .eq =
      compare (if v then 1 else 0) n := by
    obtain ⟨hnum, hcmp⟩ := compare_ofInt n v
    rw [partialCmp_rank (floatRank_bool v).1 hnum, Option.getD_some, Std.OrientedOrd.eq_swap, hcmp,
      ← Std.OrientedOrd.eq_swap]
  have hright (n : ℤ) (v : Bool) : (partialCmp (Float.ofInt n) (if v then 1 else 0)).getD .eq =
      compare n (if v then 1 else 0) := by
    obtain ⟨hnum, hcmp⟩ := compare_ofInt n v
    rw [partialCmp_rank hnum (floatRank_bool v).1, Option.getD_some, hcmp]
  have hclassA := classified fmt a
  have hclassB := classified fmt b
  generalize keyClass fmt a = k at ha hclassA
  generalize keyClass fmt b = l at hb hclassB
  cases hclassA with
  | bool v =>
    cases hclassB with
    | bool w => cases v <;> cases w <;> rfl
    | i64 n => exact hleft v n
    | u64 n => exact hleft v n
    | _ => simp at hb
  | i64 m =>
    cases hclassB with
    | bool w => exact hright m w
    | i64 n => rfl
    | u64 n => rfl
    | _ => simp at hb
  | u64 m =>
    cases hclassB with
    | bool w => exact hright m w
    | i64 n => rfl
    | u64 n => exact (compare_cast m n).symm
    | _ => simp at hb
  | _ => simp at ha

theorem compare_bool_rank (v w : Bool) : compare v w =
    compare (floatRank (if v then 1 else 0)) (floatRank (if w then 1 else 0)) := by
  rw [(floatRank_bool v).2, (floatRank_bool w).2]
  cases v <;> cases w <;> rfl

theorem compare_bool_text : ∀ v w : Bool, compare v w =
    compare (if v then "1" else "0") (if w then "1" else "0") := by
  decide

/-- Numbers that are no integers compare with each other and with booleans as floats. -/
theorem cmpLit_nums (ha : keyClass fmt a ∈ ({.bool, .num} : Set KeyClass))
    (hb : keyClass fmt b ∈ ({.bool, .num} : Set KeyClass)) :
    cmpLit fmt a b = compare (floatRank ((litToF64 fmt a).getD 0))
      (floatRank ((litToF64 fmt b).getD 0)) := by
  have hclassA := classified fmt a
  have hclassB := classified fmt b
  generalize keyClass fmt a = k at ha hclassA
  generalize keyClass fmt b = l at hb hclassB
  have hfloats {x y : Float} (h : FloatKind a ∨ FloatKind b) (hx : litToF64 fmt a = some x)
      (hy : litToF64 fmt b = some y) (hxnum : x.isNaN = false) (hynum : y.isNaN = false) :
      cmpLit fmt a b = compare (floatRank ((litToF64 fmt a).getD 0))
        (floatRank ((litToF64 fmt b).getD 0)) := by
    rw [cmpLit_of_floats h hx hy, partialCmp_rank hxnum hynum, hx, hy]
    rfl
  cases hclassA with
  | bool v =>
    cases hclassB with
    | bool w => exact compare_bool_rank v w
    | num hkind hy hynum => exact hfloats (.inr hkind) rfl hy (floatRank_bool v).1 hynum
    | _ => simp at hb
  | num hkind hx hxnum =>
    cases hclassB with
    | bool w => exact hfloats (.inl hkind) hx rfl hxnum (floatRank_bool w).1
    | num _ hy hynum => exact hfloats (.inl hkind) hx hy hxnum hynum
    | _ => simp at hb
  | _ => simp at ha

/-- Texts compare with booleans, or with strings, as their texts do. -/
theorem cmpLit_texts (hC : keyClass fmt a ∈ ({.bool, .text} : Set KeyClass) ∧
      keyClass fmt b ∈ ({.bool, .text} : Set KeyClass) ∨
    keyClass fmt a ∈ ({.str, .text} : Set KeyClass) ∧
      keyClass fmt b ∈ ({.str, .text} : Set KeyClass)) :
    cmpLit fmt a b = compare ((litToStringForLike fmt a).getD "")
      ((litToStringForLike fmt b).getD "") := by
  have hclassA := classified fmt a
  have hclassB := classified fmt b
  generalize keyClass fmt a = k at hC hclassA
  generalize keyClass fmt b = l at hC hclassB
  have htexts {x y : String} (h : litToF64 fmt a = none ∨ litToF64 fmt b = none)
      (hx : litToStringForLike fmt a = some x) (hy : litToStringForLike fmt b = some y) :
      cmpLit fmt a b = compare ((litToStringForLike fmt a).getD "")
        ((litToStringForLike fmt b).getD "") := by
    rw [cmpLit_of_text h, hx, hy]
    rfl
  cases hclassA with
  | bool v =>
    cases hclassB with
    | bool w => exact compare_bool_text v w
    | text hf64 htext => exact htexts (.inr hf64) rfl htext
    | _ => simp at hC
  | str v =>
    cases hclassB with
    | str w => rfl
    | text hf64 htext => exact htexts (.inr hf64) rfl htext
    | _ => simp at hC
  | text hf64 htext =>
    cases hclassB with
    | bool w => exact htexts (.inl hf64) htext rfl
    | str w => exact htexts (.inl hf64) htext rfl
    | text _ htext' => exact htexts (.inl hf64) htext htext'
    | _ => simp at hC
  | _ => simp at hC

/-- NULLs, embeddings and NaNs are all equal. -/
theorem cmpLit_unordered (ha : keyClass fmt a ∈ ({.null, .nan} : Set KeyClass))
    (hb : keyClass fmt b ∈ ({.null, .nan} : Set KeyClass)) : cmpLit fmt a b = .eq := by
  have hclassA := classified fmt a
  have hclassB := classified fmt b
  generalize keyClass fmt a = k at ha hclassA
  generalize keyClass fmt b = l at hb hclassB
  cases hclassA with
  | null h => exact cmpLit_incomparable (.inl h)
  | nan hkind hx hnan =>
    cases hclassB with
    | null h => exact cmpLit_incomparable (.inr h)
    | nan _ hy _ =>
      rw [cmpLit_of_floats (.inl hkind) hx hy]
      exact partialCmp_isNaN (.inl hnan)
    | _ => simp at hb
  | _ => simp at ha

theorem Sortable.consistent {C : Set KeyClass} (h : Sortable C) :
    ConsistentOn (cmpLit fmt) (classLits fmt C) := by
  cases h with
  | unordered h =>
    exact .of_compare (f := fun _ => 0) fun a ha b hb => cmpLit_unordered (h ha) (h hb)
  | ints h => exact .of_compare (f := intValue) fun a ha b hb => cmpLit_ints (h ha) (h hb)
  | nums h =>
    exact .of_compare (f := fun lit => floatRank ((litToF64 fmt lit).getD 0)) fun a ha b hb =>
      cmpLit_nums (h ha) (h hb)
  | flags h =>
    exact .of_compare (f := fun lit => (litToStringForLike fmt lit).getD "") fun a ha b hb =>
      cmpLit_texts (.inl ⟨h ha, h hb⟩)
  | strs h =>
    exact .of_compare (f := fun lit => (litToStringForLike fmt lit).getD "") fun a ha b hb =>
      cmpLit_texts (.inr ⟨h ha, h hb⟩)

end Kinds

/-- What the conversion of texts to floats answers for some texts. -/
structure ReadsNumbers (fmt : Formats) : Prop where
  one : fmt.parseF64 "1" = some 1
  decimal : fmt.parseF64 "1.0" = some 1
  nine : fmt.parseF64 "9" = some 9
  ten : fmt.parseF64 "10" = some 10
  word : fmt.parseF64 "5x" = none
  nan : ∃ x, fmt.parseF64 "NaN" = some x ∧ x.isNaN = true
  lowerNan : ∃ x, fmt.parseF64 "nan" = some x ∧ x.isNaN = true

section Clashes
variable {fmt} {a b c : Lit} {C : Set KeyClass} {K : Set Lit} {k : KeyClass}

/-- A greater literal of a class. -/
def high : KeyClass → Lit
  | .null => .null
  | .nan => .dec "NaN"
  | .bool => .bool true
  | .int => .i64 10
  | .num => .dec "10"
  | .str => .str "9"
  | .text => .uuid "b"

/-- A smaller literal of a class, where not all are equal. -/
def low : KeyClass → Lit
  | .null => .null
  | .nan => .dec "NaN"
  | .bool => .bool false
  | .int => .i64 9
  | .num => .dec "9"
  | .str => .str "10"
  | .text => .uuid "a"

theorem mem_classLits (h : keyClass fmt a = k) (hk : k ∈ C) : a ∈ classLits fmt C := by
  change keyClass fmt a ∈ C
  rw [h]
  exact hk

theorem keyClass_nan {v : String} (h : ∃ x, fmt.parseF64 v = some x ∧ x.isNaN = true) :
    keyClass fmt (.dec v) = .nan := by
  obtain ⟨x, hx, hnan⟩ := h
  rw [keyClass, hx, Option.map_some, Option.getD_some, numberClass, if_pos hnan]

theorem keyClass_num {v : String} {x : Float} (hx : fmt.parseF64 v = some x)
    (hnum : x.isNaN = false) : keyClass fmt (.dec v) = .num := by
  rw [keyClass, hx, Option.map_some, Option.getD_some, numberClass, hnum]
  rfl

theorem ReadsNumbers.high_class (h : ReadsNumbers fmt) (k : KeyClass) :
    keyClass fmt (high k) = k := by
  cases k with
  | nan => exact keyClass_nan h.nan
  | num => exact keyClass_num h.ten rfl
  | _ => rfl

theorem ReadsNumbers.low_class (h : ReadsNumbers fmt) (k : KeyClass) :
    keyClass fmt (low k) = k := by
  cases k with
  | nan => exact keyClass_nan h.nan
  | num => exact keyClass_num h.nine rfl
  | _ => rfl

theorem ReadsNumbers.high_low (h : ReadsNumbers fmt) (hnull : k ≠ .null) (hnan : k ≠ .nan) :
    cmpLit fmt (high k) (low k) = .gt := by
  cases k with
  | null => exact absurd rfl hnull
  | nan => exact absurd rfl hnan
  | bool => rfl
  | int => rfl
  | num =>
    have hten : litToF64 fmt (high .num) = some 10 := h.ten
    have hnine : litToF64 fmt (low .num) = some 9 := h.nine
    have hkind : FloatKind (high .num) := .dec "10"
    rw [cmpLit_of_floats (.inl hkind) hten hnine]
    decide +kernel
  | str => exact (by decide : compare "9" "10" = .gt)
  | text => exact (by decide : compare "b" "a" = .gt)

/-- Three literals that go around. -/
theorem not_consistent (ha : a ∈ K) (hb : b ∈ K) (hc : c ∈ K) (hab : cmpLit fmt a b ≠ .gt)
    (hbc : cmpLit fmt b c ≠ .gt) (hac : cmpLit fmt a c = .gt) :
    ¬ ConsistentOn (cmpLit fmt) K := by
  intro h
  have hle := h.trans a ha b hb c hc (Ordering.isLE_iff_ne_gt.mpr hab)
    (Ordering.isLE_iff_ne_gt.mpr hbc)
  rw [hac] at hle
  cases hle

/-- A NULL clashes with every class whose literals differ. -/
theorem ReadsNumbers.null_clash (h : ReadsNumbers fmt)
    (hcons : ConsistentOn (cmpLit fmt) (classLits fmt C)) (hnull : .null ∈ C) (hk : k ∈ C) :
    k = .null ∨ k = .nan := by
  by_contra hother
  obtain ⟨hne, hne'⟩ := not_or.mp hother
  refine not_consistent (a := high k) (b := .null) (c := low k) ?_ hnull ?_ ?_ ?_
    (h.high_low hne hne') hcons
  · exact mem_classLits (h.high_class k) hk
  · exact mem_classLits (h.low_class k) hk
  · rw [@cmpLit_incomparable fmt (high k) .null (.inr rfl)]
    decide
  · rw [@cmpLit_incomparable fmt .null (low k) (.inl rfl)]
    decide

/-- A NaN clashes with numbers, and with strings that read as numbers. -/
theorem ReadsNumbers.nan_clash (h : ReadsNumbers fmt)
    (hcons : ConsistentOn (cmpLit fmt) (classLits fmt C)) (hnan : .nan ∈ C) (hk : k ∈ C) :
    k = .null ∨ k = .nan := by
  by_contra hother
  obtain ⟨hne, hne'⟩ := not_or.mp hother
  obtain ⟨x, hx, hxnan⟩ := h.nan
  have hleft {lit : Lit} {y : Float} (hy : litToF64 fmt lit = some y) :
      cmpLit fmt (.dec "NaN") lit ≠ .gt := by
    rw [cmpLit_of_floats (.inl (.dec _)) hx hy, partialCmp_isNaN (.inl hxnan)]
    decide
  have hright {lit : Lit} {y : Float} (hy : litToF64 fmt lit = some y) :
      cmpLit fmt lit (.dec "NaN") ≠ .gt := by
    rw [cmpLit_of_floats (.inr (.dec _)) hy hx, partialCmp_isNaN (.inr hxnan)]
    decide
  have hclass : Lit.dec "NaN" ∈ classLits fmt C := mem_classLits (keyClass_nan h.nan) hnan
  have hhigh : high k ∈ classLits fmt C := mem_classLits (h.high_class k) hk
  have hlow : low k ∈ classLits fmt C := mem_classLits (h.low_class k) hk
  by_cases htext : k = .text
  · subst htext
    -- as texts the two NaNs stand on both sides of an O
    have hlower : Lit.dec "nan" ∈ classLits fmt C := mem_classLits (keyClass_nan h.lowerNan) hnan
    obtain ⟨y, hy, hynan⟩ := h.lowerNan
    refine not_consistent hlower hclass (c := .uuid "O") hk (hright hy) ?_ ?_ hcons
    · rw [cmpLit_of_text (.inr rfl)]
      exact (by decide : compare "NaN" "O" ≠ .gt)
    · rw [cmpLit_of_text (.inr rfl)]
      exact (by decide : compare "nan" "O" = .gt)
  have hnumber : (∃ y, litToF64 fmt (high k) = some y) ∧ ∃ y, litToF64 fmt (low k) = some y := by
    cases k with
    | null => exact absurd rfl hne
    | nan => exact absurd rfl hne'
    | bool => exact ⟨⟨_, rfl⟩, ⟨_, rfl⟩⟩
    | int => exact ⟨⟨_, rfl⟩, ⟨_, rfl⟩⟩
    | num => exact ⟨⟨_, h.ten⟩, ⟨_, h.nine⟩⟩
    | str => exact ⟨⟨_, h.nine⟩, ⟨_, h.ten⟩⟩
    | text => exact absurd rfl htext
  obtain ⟨⟨y, hy⟩, z, hz⟩ := hnumber
  exact not_consistent hhigh hclass hlow (hright hy) (hleft hz) (h.high_low hne hne') hcons

/-- Between the texts of 10 and 9 there is one that is no number. -/
theorem ReadsNumbers.word_clash (h : ReadsNumbers fmt)
    (hcons : ConsistentOn (cmpLit fmt) (classLits fmt C)) {k' : KeyClass}
    (hk : k = .int ∨ k = .num) (hk' : k' = .str ∨ k' = .text) (hmem : k ∈ C) : k' ∉ C := by
  intro hmem'
  obtain ⟨lit, hlit, hf64, htext⟩ : ∃ lit, lit ∈ classLits fmt C ∧ litToF64 fmt lit = none ∧
      litToStringForLike fmt lit = some "5x" := by
    rcases hk' with rfl | rfl
    · exact ⟨.str "5x", hmem', h.word, rfl⟩
    · exact ⟨.uuid "5x", hmem', rfl, rfl⟩
  have htexts : litToStringForLike fmt (high k) = some "10" ∧
      litToStringForLike fmt (low k) = some "9" := by
    rcases hk with rfl | rfl
    · exact ⟨congrArg some (by decide), congrArg some (by decide)⟩
    · exact ⟨rfl, rfl⟩
  have hgt : cmpLit fmt (high k) (low k) = .gt := by
    rcases hk with rfl | rfl
    · exact h.high_low (by decide) (by decide)
    · exact h.high_low (by decide) (by decide)
  refine not_consistent (a := high k) (c := low k) ?_ hlit ?_ ?_ ?_ hgt hcons
  · exact mem_classLits (h.high_class k) hmem
  · exact mem_classLits (h.low_class k) hmem
  · rw [cmpLit_of_text (.inr hf64), htexts.1, htext]
    exact (by decide : compare "10" "5x" ≠ .gt)
  · rw [cmpLit_of_text (.inl hf64), htexts.2, htext]
    exact (by decide : compare "5x" "9" ≠ .gt)

/-- Two integers may have one float. -/
theorem int_clash (hcons : ConsistentOn (cmpLit fmt) (classLits fmt C)) (hint : .int ∈ C) :
    .num ∉ C := by
  intro hnum
  refine not_consistent (a := .i64 (2 ^ 53 + 1)) (b := .f64 (Float.ofInt (2 ^ 53)))
    (c := .i64 (2 ^ 53)) hint hnum hint ?_ ?_ rfl hcons
  · rw [cmpLit_of_floats (.inr (.f64 _)) rfl rfl]
    decide +kernel
  · rw [cmpLit_of_floats (.inl (.f64 _)) rfl rfl]
    decide +kernel

/-- Two strings that read as one both equal a boolean. -/
theorem ReadsNumbers.str_clash (h : ReadsNumbers fmt)
    (hcons : ConsistentOn (cmpLit fmt) (classLits fmt C)) (hbool : .bool ∈ C) : .str ∉ C := by
  intro hstr
  refine not_consistent (a := .str "1.0") (b := .bool true) (c := .str "1") hstr hbool hstr
    ?_ ?_ (by decide : compare "1.0" "1" = .gt) hcons
  · change cmpMixed fmt (.str "1.0") (.bool true) ≠ .gt
    simp only [cmpMixed, litToF64, h.decimal]
    decide +kernel
  · change cmpMixed fmt (.bool true) (.str "1") ≠ .gt
    simp only [cmpMixed, litToF64, h.one]
    decide +kernel

/-- Two classes that clash do not stand in one column. -/
theorem ReadsNumbers.sortable (h : ReadsNumbers fmt)
    (hcons : ConsistentOn (cmpLit fmt) (classLits fmt C)) : Sortable C := by
  by_cases hnull : .null ∈ C
  · exact .unordered fun k hk => h.null_clash hcons hnull hk
  by_cases hnan : .nan ∈ C
  · exact .unordered fun k hk => h.nan_clash hcons hnan hk
  by_cases hint : .int ∈ C
  · refine .ints fun k hk => ?_
    cases k with
    | num => exact absurd hk (int_clash hcons hint)
    | str => exact absurd hk (h.word_clash hcons (.inl rfl) (.inl rfl) hint)
    | text => exact absurd hk (h.word_clash hcons (.inl rfl) (.inr rfl) hint)
    | _ => simp_all
  by_cases hnum : .num ∈ C
  · refine .nums fun k hk => ?_
    cases k with
    | str => exact absurd hk (h.word_clash hcons (.inr rfl) (.inl rfl) hnum)
    | text => exact absurd hk (h.word_clash hcons (.inr rfl) (.inr rfl) hnum)
    | _ => simp_all
  by_cases hbool : .bool ∈ C
  · refine .flags fun k hk => ?_
    cases k with
    | str => exact absurd hk (h.str_clash hcons hbool)
    | _ => simp_all
  · refine .strs fun k hk => ?_
    cases k <;> simp_all

end Clashes

/-- An ORDER BY clause sorts the rows of every SELECT whose keys have literals of given classes in
its columns if and only if each column has one of five kinds of literals: NULLs, embeddings and
NaNs; integers and booleans; other numbers and booleans; texts that are no numbers and booleans;
such texts and strings. -/
theorem order_by_sorts_iff (hreads : ReadsNumbers fmt) (order : List (OrderBy X))
    (columns : List (Set KeyClass)) (hlen : order.length = columns.length)
    (hne : ∀ C ∈ columns, C.Nonempty) :
    (∀ items : List (List Lit × List Lit),
        (∀ item ∈ items, KeyOver (columns.map (classLits fmt)) item.1) →
        SortsRows fmt order items) ↔ ∀ C ∈ columns, Sortable C := by
  have hlen' : order.length = (columns.map (classLits fmt)).length := by
    rw [hlen, List.length_map]
  have hne' : ∀ K ∈ columns.map (classLits fmt), K.Nonempty := by
    rintro K hK
    obtain ⟨C, hC, rfl⟩ := List.mem_map.mp hK
    obtain ⟨k, hk⟩ := hne C hC
    exact ⟨high k, mem_classLits (hreads.high_class k) hk⟩
  rw [sortsRows_iff_consistent hlen' hne']
  constructor
  · exact fun h C hC => hreads.sortable (h _ (List.mem_map_of_mem hC))
  · intro h K hK
    obtain ⟨C, hC, rfl⟩ := List.mem_map.mp hK
    exact (h C hC).consistent

/-- The conversions of a server that reads no text as a number. -/
def plainFormats : Formats := ⟨fun _ => none, toString, fun _ => ""⟩

/-- The conversions of a server that reads a few texts as numbers. -/
def readingFormats : Formats where
  parseF64 text :=
    if text = "1" ∨ text = "1.0" then some 1
    else if text = "9" then some 9
    else if text = "10" then some 10
    else if text = "NaN" ∨ text = "nan" then some (0 / 0)
    else none
  showF64 := toString
  showJson _ := ""

theorem readingFormats_reads : ReadsNumbers readingFormats where
  one := rfl
  decimal := rfl
  nine := rfl
  ten := rfl
  word := rfl
  nan := ⟨0 / 0, rfl, by decide +kernel⟩
  lowerNan := ⟨0 / 0, rfl, by decide +kernel⟩

/-- Integers with a boolean, descending, and then strings with a UUID. -/
theorem order_by_sorts_iff_sample :
    SortsRows readingFormats
      ([⟨.lit .null, some .desc⟩, ⟨.lit .null, none⟩] : List (OrderBy Unit))
      [([.i64 3, .str "10"], []), ([.bool true, .uuid "9"], []), ([.u64 1, .str "5x"], [])] := by
  refine (order_by_sorts_iff readingFormats readingFormats_reads _
    [{.bool, .int}, {.str, .text}] rfl ?_).mpr ?_ _ ?_
  · intro C hC
    fin_cases hC
    · exact ⟨.bool, .inl rfl⟩
    · exact ⟨.str, .inl rfl⟩
  · intro C hC
    fin_cases hC
    · exact .ints (subset_refl _)
    · exact .strs (subset_refl _)
  · intro item hitem
    fin_cases hitem
    · exact .cons (.inr rfl) (.cons (.inl rfl) .nil)
    · exact .cons (.inl rfl) (.cons (.inr rfl) .nil)
    · exact .cons (.inr rfl) (.cons (.inl rfl) .nil)

/-- One ascending column. -/
def oneColumn (X : Type) : List (OrderBy X) := [⟨.lit .null, some .asc⟩]

/-- A NULL compares as equal to 2 and to 1, but 2 does not compare as at most 1. -/
theorem null_breaks_the_order :
    ¬ SortsRows plainFormats (oneColumn Unit) [([.i64 2], []), ([.null], []), ([.i64 1], [])] := by
  intro h
  exact absurd (h.consistent.trans [.i64 2] (by simp) [.null] (by simp) [.i64 1] (by simp)
    (by decide) (by decide)) (by decide)

end SkeinDB.Queries
