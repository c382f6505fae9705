import SkeinDB.Merge.Rows

/-!
# The laws of merging

Merging with `max`, `min` and `set_union` does not depend on the order in which rows arrive, as long
as the values of a column are of kinds on which its function operates, or are the same.
-/
namespace SkeinDB.Merge

section Orders
variable {α : Type} {r : α → α → Prop} {op : α → α → α} {S : Set α} {l l' : List α}

/-- An operation that is commutative and associative up to a relation, on a set that it keeps. -/
structure Orderless (r : α → α → Prop) (op : α → α → α) (S : Set α) : Prop where
  equiv : Equivalence r
  closed : ∀ x ∈ S, ∀ y ∈ S, op x y ∈ S
  left : ∀ x ∈ S, ∀ x' ∈ S, ∀ y ∈ S, r x x' → r (op x y) (op x' y)
  right : ∀ x ∈ S, ∀ y ∈ S, ∀ y' ∈ S, r y y' → r (op x y) (op x y')
  comm : ∀ x ∈ S, ∀ y ∈ S, r (op x y) (op y x)
  assoc : ∀ x ∈ S, ∀ y ∈ S, ∀ z ∈ S, r (op (op x y) z) (op x (op y z))

theorem Orderless.swap (h : Orderless r op S) {x y z : α} (hx : x ∈ S) (hy : y ∈ S) (hz : z ∈ S) :
    r (op (op x y) z) (op (op x z) y) := by
  have hyz := h.right x hx _ (h.closed y hy z hz) _ (h.closed z hz y hy) (h.comm y hy z hz)
  exact h.equiv.trans (h.assoc x hx y hy z hz)
    (h.equiv.trans hyz (h.equiv.symm (h.assoc x hx z hz y hy)))

/-- Its folds do not depend on the order. -/
theorem Orderless.foldl_perm (h : Orderless r op S) (hperm : l.Perm l') (hl : ∀ x ∈ l, x ∈ S)
    {a a' : α} (ha : a ∈ S) (ha' : a' ∈ S) (haa' : r a a') :
    r (l.foldl op a) (l'.foldl op a') := by
  have hkept : ∀ (l : List α), (∀ x ∈ l, x ∈ S) → ∀ a ∈ S, ∀ a' ∈ S, r a a' →
      r (l.foldl op a) (l.foldl op a') := by
    intro l
    induction l with
    | nil => exact fun _ a _ a' _ haa' => haa'
    | cons x l ih =>
      intro hl a ha a' ha' haa'
      have hx := hl x List.mem_cons_self
      exact ih (fun y hy => hl y (List.mem_cons_of_mem x hy)) _ (h.closed a ha x hx) _
        (h.closed a' ha' x hx) (h.left a ha a' ha' x hx haa')
  induction hperm generalizing a a' with
  | nil => exact haa'
  | cons x _ ih =>
    have hx := hl x List.mem_cons_self
    exact ih (fun y hy => hl y (List.mem_cons_of_mem x hy)) (h.closed a ha x hx)
      (h.closed a' ha' x hx) (h.left a ha a' ha' x hx haa')
  | swap x y l =>
    have hy := hl y List.mem_cons_self
    have hx := hl x (List.mem_cons_of_mem y List.mem_cons_self)
    have hya := h.closed a ha y hy
    have hya' := h.closed a' ha' y hy
    refine hkept l (fun z hz => hl z (by simp [hz])) _ (h.closed _ hya x hx) _
      (h.closed _ (h.closed a' ha' x hx) y hy) ?_
    exact h.equiv.trans (h.left _ hya _ hya' x hx (h.left a ha a' ha' y hy haa')) (h.swap ha' hy hx)
  | trans hperm₁ hperm₂ ih₁ ih₂ =>
    have hmiddle : ∀ x ∈ _, x ∈ S := fun x hx => hl x (hperm₁.mem_iff.mpr hx)
    exact h.equiv.trans (ih₁ hl ha ha' haa') (ih₂ hmiddle ha' ha' (h.equiv.refl a'))

theorem option_equivalence (h : Equivalence r) : Equivalence (Option.Rel r) where
  refl := by
    rintro (_ | x)
    · exact .none
    · exact .some (h.refl x)
  symm := by
    rintro _ _ (hxy | _)
    · exact .some (h.symm hxy)
    · exact .none
  trans := by
    rintro _ _ _ (hxy | _) (hyz | _)
    · exact .some (h.trans hxy hyz)
    · exact .none

/-- Values that may be missing. -/
theorem Orderless.option (h : Orderless r op S) :
    Orderless (Option.Rel r) (Option.merge op) {o | ∀ x ∈ o, x ∈ S} where
  equiv := option_equivalence h.equiv
  closed := by
    rintro (_ | x) hx (_ | y) hy z hz <;> cases hz
    · exact hy _ rfl
    · exact hx _ rfl
    · exact h.closed x (hx x rfl) y (hy y rfl)
  left := by
    rintro _ hx _ hx' (_ | y) hy (hxx' | _)
    · exact .some hxx'
    · exact .none
    · exact .some (h.left _ (hx _ rfl) _ (hx' _ rfl) y (hy y rfl) hxx')
    · exact .some (h.equiv.refl y)
  right := by
    rintro (_ | x) hx _ hy _ hy' (hyy' | _)
    · exact .some hyy'
    · exact .none
    · exact .some (h.right x (hx x rfl) _ (hy _ rfl) _ (hy' _ rfl) hyy')
    · exact .some (h.equiv.refl x)
  comm := by
    rintro (_ | x) hx (_ | y) hy
    · exact .none
    · exact .some (h.equiv.refl y)
    · exact .some (h.equiv.refl x)
    · exact .some (h.comm x (hx x rfl) y (hy y rfl))
  assoc := by
    rintro (_ | x) hx (_ | y) hy (_ | z) hz
    case some.some.some => exact .some (h.assoc x (hx x rfl) y (hy y rfl) z (hz z rfl))
    case none.none.none => exact .none
    all_goals exact .some (h.equiv.refl _)

end Orders

section Values
variable {F J : Type} [BEq J]

/-- Equal values, or arrays with the same items. -/
inductive Same : Lit F J → Lit F J → Prop
  | refl (x : Lit F J) : Same x x
  | arrays {x y : List J} (h : ∀ item, x.contains item = y.contains item) :
    Same (.json (.array x)) (.json (.array y))

theorem Same.symm {x y : Lit F J} (h : Same x y) : Same y x := by
  cases h with
  | refl => exact .refl _
  | arrays h => exact .arrays fun item => (h item).symm

theorem same_equivalence : Equivalence (Same (F := F) (J := J)) where
  refl := .refl
  symm := Same.symm
  trans := by
    rintro _ _ _ (_ | h) (_ | h')
    · exact .refl _
    · exact .arrays h'
    · exact .arrays h
    · exact .arrays fun item => (h item).trans (h' item)

/-- The integers, NULL and JSON arrays. -/
inductive Mergeable : Lit F J → Prop
  | null : Mergeable .null
  | i64 (v : ℤ) : Mergeable (.i64 v)
  | u64 (v : ℕ) : Mergeable (.u64 v)
  | array (items : List J) : Mergeable (.json (.array items))

/-- The integer of a literal. -/
def toInt : Lit F J → Option ℤ
  | .i64 v => some v
  | .u64 v => some v
  | _ => none

def toArray : Lit F J → Option (List J)
  | .json (.array items) => some items
  | _ => none

/-- The values on which a function operates: integers, or arrays. -/
def MergeFn.reads (fn : MergeFn) (x : Lit F J) : Bool :=
  match fn with
  | .max | .min => (toInt x).isSome
  | .setUnion => (toArray x).isSome
  | _ => false

theorem Same.mergeable {x y : Lit F J} (h : Same x y) (hy : Mergeable y) : Mergeable x := by
  cases h with
  | refl => exact hy
  | arrays => exact .array _

theorem Same.contains_eq {x y : List J} (h : Same (F := F) (.json (.array x)) (.json (.array y)))
    (item : J) : x.contains item = y.contains item := by
  cases h with
  | refl => rfl
  | arrays h => exact h item

/-- A function operates on two values, or they are the same. -/
def MergeFn.Agrees (fn : MergeFn) (x y : Lit F J) : Prop :=
  (fn.reads x ∧ fn.reads y) ∨ Same x y

theorem Same.reads_eq {x y : Lit F J} (h : Same x y) (fn : MergeFn) : fn.reads x = fn.reads y := by
  cases h with
  | refl => rfl
  | arrays => cases fn <;> rfl

section Unions
variable [EquivBEq J]

theorem contains_unionLoop (out items : List J) (item : J) :
    (unionLoop out items).contains item = (out.contains item || items.contains item) := by
  induction items generalizing out with
  | nil => simp [unionLoop]
  | cons head items ih =>
    have hstep : unionLoop out (head :: items) =
        unionLoop (if out.contains head then out else out ++ [head]) items := rfl
    rw [hstep, ih, List.contains_cons]
    split_ifs with hhead
    · rcases hitem : item == head with _ | _
      · simp
      · -- an item that equals one of `out` is in it already
        have hout : out.contains item = true := by
          rw [List.contains_congr hitem]
          exact hhead
        simp [hout]
    · rw [List.contains_append, List.contains_cons, List.contains_nil, Bool.or_false, Bool.or_assoc]

end Unions

section Numbers

/-- The kinds of numbers. Two numbers of different kinds are merged as floats. -/
inductive NumKind
  | i64
  | u64
  | f64
  deriving DecidableEq

def NumKind.join (k k' : NumKind) : NumKind := if k = k' then k else .f64

theorem NumKind.join_self (k : NumKind) : k.join k = k := if_pos rfl

theorem NumKind.join_comm (k k' : NumKind) : k.join k' = k'.join k := by
  cases k <;> cases k' <;> rfl

theorem NumKind.join_assoc (k k' k'' : NumKind) :
    (k.join k').join k'' = k.join (k'.join k'') := by
  cases k <;> cases k' <;> cases k'' <;> rfl

/-- The literal of a kind for an integer. -/
def NumKind.toLit (ops : F64Ops F) : NumKind → ℤ → Lit F J
  | .i64, v => .i64 v
  | .u64, v => .u64 v.toNat
  | .f64, v => .f64 (ops.ofInt v)

def NumKind.Fits (k : NumKind) (v : ℤ) : Prop := k = .u64 → 0 ≤ v

/-- What `max` and `min` do to the integers themselves. -/
def MergeFn.onInts : MergeFn → ℤ → ℤ → ℤ
  | .max => Max.max
  | _ => Min.min

theorem MergeFn.onInts_self (fn : MergeFn) (v : ℤ) : fn.onInts v v = v := by
  cases fn <;> simp only [onInts] <;> omega

theorem MergeFn.onInts_comm (fn : MergeFn) (v w : ℤ) : fn.onInts v w = fn.onInts w v := by
  cases fn <;> simp only [onInts] <;> omega

theorem MergeFn.onInts_assoc (fn : MergeFn) (v w u : ℤ) :
    fn.onInts (fn.onInts v w) u = fn.onInts v (fn.onInts w u) := by
  cases fn <;> simp only [onInts] <;> omega

variable {ops : F64Ops F} {fn : MergeFn} {k k' k'' : NumKind} {v w u : ℤ}

theorem NumKind.Fits.join (h : k.Fits v) (h' : k'.Fits w) : (k.join k').Fits (fn.onInts v w) := by
  intro hjoin
  have hk : k = .u64 ∧ k' = .u64 := by
    cases k <;> cases k' <;> first | exact ⟨rfl, rfl⟩ | cases hjoin
  have hv := h hk.1
  have hw := h' hk.2
  cases fn <;> simp only [MergeFn.onInts] <;> omega

theorem NumKind.Fits.toNat_eq (h : NumKind.u64.Fits v) : (v.toNat : ℤ) = v :=
  Int.toNat_of_nonneg (h rfl)

omit [BEq J] in
/-- Numbers of one kind are merged exactly and others as the floats of their integers. -/
theorem mergeNumeric_toLit {g : ℤ → ℤ → ℤ} {onNats : ℕ → ℕ → ℕ} {onFloats : F → F → F}
    (hnats : onNats v.toNat w.toNat = (g v w).toNat)
    (hfloats : ∀ x y, onFloats (ops.ofInt x) (ops.ofInt y) = ops.ofInt (g x y))
    (h : k.Fits v) (h' : k'.Fits w) :
    mergeNumeric (J := J) ops g onNats onFloats (k.toLit ops v) (k'.toLit ops w) =
      some ((k.join k').toLit ops (g v w)) := by
  have hfloat : ∀ x y : ℤ, x = v → y = w →
      some (Lit.f64 (J := J) (onFloats (ops.ofInt x) (ops.ofInt y))) =
        some (.f64 (ops.ofInt (g v w))) := by
    rintro x y rfl rfl
    rw [hfloats]
  cases k with
  | i64 =>
    cases k' with
    | i64 => rfl
    | u64 => exact hfloat _ _ rfl h'.toNat_eq
    | f64 => exact hfloat _ _ rfl rfl
  | u64 =>
    cases k' with
    | i64 => exact hfloat _ _ h.toNat_eq rfl
    | u64 => exact congrArg (some ∘ Lit.u64) hnats
    | f64 => exact hfloat _ _ h.toNat_eq rfl
  | f64 =>
    cases k' with
    | i64 => exact hfloat _ _ rfl rfl
    | u64 => exact hfloat _ _ rfl h'.toNat_eq
    | f64 => exact hfloat _ _ rfl rfl

omit [BEq J] in
theorem exists_toLit (ops : F64Ops F) {x : Lit F J} (h : (toInt x).isSome) :
    ∃ (k : NumKind) (v : ℤ), k.Fits v ∧ x = k.toLit ops v := by
  cases x with
  | i64 v => exact ⟨.i64, v, fun hk => (by cases hk), rfl⟩
  | u64 v => exact ⟨.u64, v, fun _ => Int.natCast_nonneg v, rfl⟩
  | _ => cases h

omit [BEq J] in
theorem toLit_ne_json (v : JsonValue J) : k.toLit ops w ≠ .json v := by
  cases k <;> exact fun h => by cases h

theorem Same.eq_of_number {x : Lit F J} (h : Same (k.toLit ops v) x) : k.toLit ops v = x := by
  generalize hy : k.toLit ops v = y at h
  cases h with
  | refl => rfl
  | arrays => exact absurd hy (toLit_ne_json _)

variable (hops : ops.Monotone)
include hops

theorem mergeBuiltin_toLit (hfn : fn = .max ∨ fn = .min) (h : k.Fits v) (h' : k'.Fits w) :
    mergeBuiltin (J := J) ops fn (k.toLit ops v) (k'.toLit ops w) =
      (k.join k').toLit ops (fn.onInts v w) := by
  rcases hfn with rfl | rfl
  · have hmax : mergeNumericMax (J := J) ops (k.toLit ops v) (k'.toLit ops w) = _ :=
      mergeNumeric_toLit (g := Max.max) (by omega) hops.max_ofInt h h'
    exact congrArg (fun out => out.getD (k'.toLit ops w)) hmax
  · have hmin : mergeNumericMin (J := J) ops (k.toLit ops v) (k'.toLit ops w) = _ :=
      mergeNumeric_toLit (g := Min.min) (by omega) hops.min_ofInt h h'
    exact congrArg (fun out => out.getD (k'.toLit ops w)) hmin

end Numbers

section Combine
variable {ops : F64Ops F} {fn : MergeFn} {x y z : Lit F J}

/-- The functions whose merges do not depend on the order. -/
def MergeFn.OrderFree (fn : MergeFn) : Prop := fn = .max ∨ fn = .min ∨ fn = .setUnion

/-- Where a function does not operate on the kinds of two values the incoming one is left. -/
theorem mergeBuiltin_incoming (hfn : fn.OrderFree) (hx : Mergeable x) (hy : Mergeable y)
    (h : ¬ (fn.reads x ∧ fn.reads y)) : mergeBuiltin ops fn x y = y := by
  rcases hfn with rfl | rfl | rfl <;> cases hx <;> cases hy <;>
    first
    | rfl
    | exact absurd ⟨rfl, rfl⟩ h

omit [BEq J] in
theorem exists_array (h : MergeFn.setUnion.reads x) : ∃ items, x = .json (.array items) := by
  cases x with
  | json v =>
    cases v with
    | array items => exact ⟨items, rfl⟩
    | _ => cases h
  | _ => cases h

variable [EquivBEq J]

variable (hops : ops.Monotone)
include hops

theorem mergeBuiltin_self (hfn : fn.OrderFree) (hx : Mergeable x) :
    Same (mergeBuiltin ops fn x x) x := by
  by_cases hreads : fn.reads x
  · rcases or_assoc.mpr hfn with hfn | rfl
    · have hint : (toInt x).isSome := by rcases hfn with rfl | rfl <;> exact hreads
      obtain ⟨k, v, hv, rfl⟩ := exists_toLit ops hint
      rw [mergeBuiltin_toLit hops hfn hv hv, k.join_self, fn.onInts_self]
      exact .refl _
    · obtain ⟨items, rfl⟩ := exists_array hreads
      refine .arrays fun item => ?_
      rw [contains_unionLoop, Bool.or_self]
  · rw [mergeBuiltin_incoming hfn hx hx fun h => hreads h.1]
    exact .refl _

omit [EquivBEq J] in
/-- `max` and `min` of numbers. -/
theorem orderless_numbers (hfn : fn = .max ∨ fn = .min) :
    Orderless Same (mergeBuiltin (J := J) ops fn)
      {x | ∃ (k : NumKind) (v : ℤ), k.Fits v ∧ x = k.toLit ops v} where
  equiv := same_equivalence
  closed := by
    rintro _ ⟨k, v, hv, rfl⟩ _ ⟨k', w, hw, rfl⟩
    exact ⟨k.join k', fn.onInts v w, hv.join hw, mergeBuiltin_toLit hops hfn hv hw⟩
  left := by
    rintro _ ⟨k, v, -, rfl⟩ x' - y - hsame
    rw [hsame.eq_of_number]
    exact .refl _
  right := by
    rintro x - _ ⟨k, v, -, rfl⟩ y' - hsame
    rw [hsame.eq_of_number]
    exact .refl _
  comm := by
    rintro _ ⟨k, v, hv, rfl⟩ _ ⟨k', w, hw, rfl⟩
    rw [mergeBuiltin_toLit hops hfn hv hw, mergeBuiltin_toLit hops hfn hw hv, k.join_comm,
      fn.onInts_comm]
    exact .refl _
  assoc := by
    rintro _ ⟨k, v, hv, rfl⟩ _ ⟨k', w, hw, rfl⟩ _ ⟨k'', u, hu, rfl⟩
    rw [mergeBuiltin_toLit hops hfn hv hw, mergeBuiltin_toLit hops hfn (hv.join hw) hu,
      mergeBuiltin_toLit hops hfn hw hu, mergeBuiltin_toLit hops hfn hv (hw.join hu),
      k.join_assoc, fn.onInts_assoc]
    exact .refl _

omit hops in
/-- `set_union` of arrays. -/
theorem orderless_arrays : Orderless Same (mergeBuiltin (J := J) ops .setUnion)
    {x | ∃ items, x = .json (.array items)} where
  equiv := same_equivalence
  closed := by
    rintro _ ⟨items, rfl⟩ _ ⟨items', rfl⟩
    exact ⟨unionLoop items items', rfl⟩
  left := by
    rintro _ ⟨items, rfl⟩ _ ⟨items', rfl⟩ _ ⟨others, rfl⟩ hsame
    refine .arrays fun item => ?_
    rw [contains_unionLoop, contains_unionLoop, hsame.contains_eq]
  right := by
    rintro _ ⟨others, rfl⟩ _ ⟨items, rfl⟩ _ ⟨items', rfl⟩ hsame
    refine .arrays fun item => ?_
    rw [contains_unionLoop, contains_unionLoop, hsame.contains_eq]
  comm := by
    rintro _ ⟨items, rfl⟩ _ ⟨items', rfl⟩
    refine .arrays fun item => ?_
    rw [contains_unionLoop, contains_unionLoop, Bool.or_comm]
  assoc := by
    rintro _ ⟨items, rfl⟩ _ ⟨items', rfl⟩ _ ⟨items'', rfl⟩
    refine .arrays fun item => ?_
    rw [contains_unionLoop, contains_unionLoop, contains_unionLoop, contains_unionLoop,
      Bool.or_assoc]

omit hops [EquivBEq J] in
/-- Values that are the same, where the function does not operate on them. -/
theorem orderless_same (hfn : fn.OrderFree) (hx : Mergeable x) (hreads : ¬fn.reads x) :
    Orderless Same (mergeBuiltin ops fn) {y | Same y x} := by
  have hincoming : ∀ y, Same y x → ∀ z, Same z x → mergeBuiltin ops fn y z = z := by
    intro y hy z hz
    refine mergeBuiltin_incoming hfn (hy.mergeable hx) (hz.mergeable hx) fun h => hreads ?_
    rw [← hy.reads_eq fn]
    exact h.1
  have hsame : ∀ {y z}, Same y x → Same z x → Same y z :=
    fun hy hz => same_equivalence.trans hy hz.symm
  refine ⟨same_equivalence, ?_, ?_, ?_, ?_, ?_⟩
  · intro y hy z hz
    rw [hincoming y hy z hz]
    exact hz
  · intro y hy y' hy' z hz _
    rw [hincoming y hy z hz, hincoming y' hy' z hz]
    exact .refl z
  · intro y hy z hz z' hz' _
    rw [hincoming y hy z hz, hincoming y hy z' hz']
    exact hsame hz hz'
  · intro y hy z hz
    rw [hincoming y hy z hz, hincoming z hz y hy]
    exact hsame hz hy
  · intro y hy z hz u hu
    rw [hincoming y hy z hz, hincoming z hz u hu, hincoming y hy u hu]
    exact .refl u

/-- The values of a column that agree belong to a set on which the order does not matter. -/
theorem exists_orderless (hfn : fn.OrderFree) {values : Set (Lit F J)}
    (hvalues : ∀ x ∈ values, Mergeable x) (hagree : ∀ x ∈ values, ∀ y ∈ values, fn.Agrees x y) :
    ∃ S, Orderless Same (mergeBuiltin ops fn) S ∧ values ⊆ S := by
  by_cases hread : ∃ x ∈ values, ¬fn.reads x
  · obtain ⟨x, hx, hreads⟩ := hread
    refine ⟨_, orderless_same hfn (hvalues x hx) hreads, fun y hy => ?_⟩
    exact (hagree y hy x hx).resolve_left fun h => hreads h.2
  · push Not at hread
    rcases or_assoc.mpr hfn with hfn | rfl
    · refine ⟨_, orderless_numbers hops hfn, fun x hx => exists_toLit ops ?_⟩
      rcases hfn with rfl | rfl <;> exact hread x hx
    · exact ⟨_, orderless_arrays, fun x hx => exists_array (hread x hx)⟩

end Combine

end Values

section Rows
variable {F J : Type} [BEq J]

def RowSame (r s : RowObject F J) : Prop := ∀ key, Option.Rel Same (r.lookup key) (s.lookup key)

def RowMergeable (r : RowObject F J) : Prop := ∀ key x, r.lookup key = some x → Mergeable x

def MergeFunctionRef.OrderFree (func : MergeFunctionRef) : Prop :=
  func.kind = "builtin" ∧ (func.name = "max" ∨ func.name = "min" ∨ func.name = "set_union")

/-- A policy of the built-in functions `max`, `min` and `set_union`. -/
structure MergePolicySpec.OrderFree (policy : MergePolicySpec) : Prop where
  default : policy.default.OrderFree
  perColumn : ∀ column ∈ policy.perColumn, column.2.OrderFree

/-- The function of a column operates on the values that two rows have there, or they are the
same. -/
def RowsAgree (policy : MergePolicySpec) (r s : RowObject F J) : Prop :=
  ∀ key fn x y, mergeFnFromRef (policy.functionFor key) = .ok fn → r.lookup key = some x →
    s.lookup key = some y → fn.Agrees x y

theorem MergePolicySpec.OrderFree.exists_fn {policy : MergePolicySpec} (h : policy.OrderFree)
    (key : String) : ∃ fn, mergeFnFromRef (policy.functionFor key) = .ok fn ∧ fn.OrderFree := by
  have hfunc : (policy.functionFor key).OrderFree := by
    rw [functionFor]
    rcases hlookup : policy.perColumn.lookup key with _ | func
    · exact h.default
    · obtain ⟨before, after, hcolumns, -⟩ := List.lookup_eq_some_iff.mp hlookup
      exact h.perColumn (key, func) (by rw [hcolumns]; simp)
  obtain ⟨hkind, hname⟩ := hfunc
  rw [mergeFnFromRef, if_neg (not_not.mpr hkind)]
  rcases hname with hname | hname | hname <;> rw [hname]
  · exact ⟨.max, rfl, Or.inl rfl⟩
  · exact ⟨.min, rfl, Or.inr (Or.inl rfl)⟩
  · exact ⟨.setUnion, rfl, Or.inr (Or.inr rfl)⟩

variable [EquivBEq J] (ops : F64Ops F) (hops : ops.Monotone)
  (wasm : Lit F J → Lit F J → MergeFunctionRef → Except String (Lit F J))
  {policy : MergePolicySpec} (hpolicy : policy.OrderFree)
include hops hpolicy

/-- The row of a replica that has merged rows in their order. It takes the first one as it is. -/
def mergeInOrder (policy : MergePolicySpec) : List (RowObject F J) → Except String (RowObject F J)
  | [] => .ok []
  | r :: rows => rows.foldlM (mergeRowsWithWasm ops wasm policy) r

omit hops hpolicy [EquivBEq J] in
theorem foldlM_merge_ok {fn : String → MergeFn}
    (hfn : ∀ key, mergeFnFromRef (policy.functionFor key) = .ok (fn key))
    (rows : List (RowObject F J)) (r : RowObject F J) :
    ∃ m, rows.foldlM (mergeRowsWithWasm ops wasm policy) r = .ok m ∧ ∀ key, m.lookup key =
      (rows.map (·.lookup key)).foldl (Option.merge (mergeBuiltin ops (fn key))) (r.lookup key) := by
  induction rows generalizing r with
  | nil => exact ⟨r, rfl, fun key => rfl⟩
  | cons s rows ih =>
    obtain ⟨next, hnext, hlookup⟩ := mergeRowsWithWasm_ok ops wasm r s hfn
    obtain ⟨m, hm, hrest⟩ := ih next
    refine ⟨m, ?_, fun key => ?_⟩
    · rw [List.foldlM_cons, hnext]
      exact hm
    · rw [hrest, hlookup]
      rfl

omit hops hpolicy [EquivBEq J] in
theorem mergeInOrder_ok {fn : String → MergeFn}
    (hfn : ∀ key, mergeFnFromRef (policy.functionFor key) = .ok (fn key))
    (rows : List (RowObject F J)) : ∃ m, mergeInOrder ops wasm policy rows = .ok m ∧
      ∀ key, m.lookup key =
        (rows.map (·.lookup key)).foldl (Option.merge (mergeBuiltin ops (fn key))) none := by
  cases rows with
  | nil => exact ⟨[], rfl, fun key => rfl⟩
  | cons r rows =>
    obtain ⟨m, hm, hlookup⟩ := foldlM_merge_ok ops wasm hfn rows r
    refine ⟨m, hm, fun key => ?_⟩
    rw [hlookup, List.map_cons, List.foldl_cons]
    cases r.lookup key <;> rfl

/-- Merging rows whose values agree is idempotent, commutative and associative, arrays compared as
sets, and replicas that merge them in different orders converge. -/
theorem mergeRows_orderFree {rows : List (RowObject F J)} (hrows : ∀ r ∈ rows, RowMergeable r)
    (hagree : ∀ r ∈ rows, ∀ s ∈ rows, RowsAgree policy r s) :
    (∀ a ∈ rows, ∃ m, mergeRowsWithWasm ops wasm policy a a = .ok m ∧ RowSame m a) ∧
      (∀ a ∈ rows, ∀ b ∈ rows, ∃ m m', mergeRowsWithWasm ops wasm policy a b = .ok m ∧
        mergeRowsWithWasm ops wasm policy b a = .ok m' ∧ RowSame m m') ∧
      (∀ a ∈ rows, ∀ b ∈ rows, ∀ c ∈ rows, ∃ ab bc m m',
        mergeRowsWithWasm ops wasm policy a b = .ok ab ∧
        mergeRowsWithWasm ops wasm policy b c = .ok bc ∧
        mergeRowsWithWasm ops wasm policy ab c = .ok m ∧
        mergeRowsWithWasm ops wasm policy a bc = .ok m' ∧ RowSame m m') ∧
      ∀ rows', rows.Perm rows' → ∃ m m', mergeInOrder ops wasm policy rows = .ok m ∧
        mergeInOrder ops wasm policy rows' = .ok m' ∧ RowSame m m' := by
  choose fn hfn hfree using hpolicy.exists_fn
  have hmerge := fun r s : RowObject F J => mergeRowsWithWasm_ok ops wasm r s hfn
  have hcolumn : ∀ key, ∃ S, Orderless Same (mergeBuiltin ops (fn key)) S ∧
      ∀ r ∈ rows, ∀ x ∈ r.lookup key, x ∈ S := by
    intro key
    have hvalues : ∀ x ∈ {x | ∃ r ∈ rows, r.lookup key = some x}, Mergeable x := by
      rintro x ⟨r, hr, hx⟩
      exact hrows r hr key x hx
    obtain ⟨S, hS, hsub⟩ := exists_orderless hops (hfree key) hvalues (by
      rintro x ⟨r, hr, hx⟩ y ⟨s, hs, hy⟩
      exact hagree r hr s hs key _ x y (hfn key) hx hy)
    exact ⟨S, hS, fun r hr x hx => hsub ⟨r, hr, hx⟩⟩
  choose S hS hmem using hcolumn
  have horder := fun key => (hS key).option
  refine ⟨?_, ?_, ?_, ?_⟩
  · intro a ha
    obtain ⟨m, hm, hlookup⟩ := hmerge a a
    refine ⟨m, hm, fun key => ?_⟩
    rw [hlookup]
    rcases hx : a.lookup key with _ | x
    · exact .none
    · exact .some (mergeBuiltin_self hops (hfree key) (hrows a ha key x hx))
  · intro a ha b hb
    obtain ⟨m, hm, hlookup⟩ := hmerge a b
    obtain ⟨m', hm', hlookup'⟩ := hmerge b a
    refine ⟨m, m', hm, hm', fun key => ?_⟩
    rw [hlookup, hlookup']
    exact (horder key).comm _ (hmem key a ha) _ (hmem key b hb)
  · intro a ha b hb c hc
    obtain ⟨ab, hab, hlookup₁⟩ := hmerge a b
    obtain ⟨bc, hbc, hlookup₂⟩ := hmerge b c
    obtain ⟨m, hm, hlookup⟩ := hmerge ab c
    obtain ⟨m', hm', hlookup'⟩ := hmerge a bc
    refine ⟨ab, bc, m, m', hab, hbc, hm, hm', fun key => ?_⟩
    rw [hlookup, hlookup', hlookup₁, hlookup₂]
    exact (horder key).assoc _ (hmem key a ha) _ (hmem key b hb) _ (hmem key c hc)
  · intro rows' hperm
    obtain ⟨m, hm, hlookup⟩ := mergeInOrder_ok ops wasm hfn rows
    obtain ⟨m', hm', hlookup'⟩ := mergeInOrder_ok ops wasm hfn rows'
    refine ⟨m, m', hm, hm', fun key => ?_⟩
    rw [hlookup, hlookup']
    have hvalues : ∀ o ∈ rows.map (·.lookup key), o ∈ {o : Option (Lit F J) | ∀ x ∈ o, x ∈ S key} := by
      intro o ho
      obtain ⟨r, hr, rfl⟩ := List.mem_map.mp ho
      exact hmem key r hr
    have hnone : none ∈ {o : Option (Lit F J) | ∀ x ∈ o, x ∈ S key} := fun x hx => by cases hx
    exact (horder key).foldl_perm (hperm.map _) hvalues hnone hnone ((horder key).equiv.refl none)

end Rows

section Samples

/-- Integers that a float holds exactly. -/
def exactOps : F64Ops ℤ := ⟨id, (· + ·), max, min, fun _ => none⟩

def noWasm : Lit ℤ ℕ → Lit ℤ ℕ → MergeFunctionRef → Except String (Lit ℤ ℕ) :=
  fun _ _ _ => .error "not_found: merge module"

def samplePolicy : MergePolicySpec := { default := { kind := "builtin", name := "max" } }

def taggedPolicy : MergePolicySpec :=
  { samplePolicy with perColumn := [("tags", { kind := "builtin", name := "set_union" })] }

/-- A row of integers, and of arrays in the column `tags`. -/
def Tagged (r : RowObject ℤ ℕ) : Prop :=
  ∀ member ∈ r, if member.1 = "tags" then (toArray member.2).isSome else (toInt member.2).isSome

theorem functionFor_other {key : String} (hkey : key ≠ "tags") :
    taggedPolicy.functionFor key = samplePolicy.default := by
  have hmissing : taggedPolicy.perColumn.lookup key = none := by
    simpa [taggedPolicy, List.lookup_eq_none_iff] using hkey
  rw [MergePolicySpec.functionFor, hmissing]
  rfl

theorem mem_of_lookup {r : RowObject ℤ ℕ} {key : String} {x : Lit ℤ ℕ}
    (h : r.lookup key = some x) : (key, x) ∈ r := by
  obtain ⟨before, after, hr, -⟩ := List.lookup_eq_some_iff.mp h
  rw [hr]
  simp

theorem Tagged.mergeable {r : RowObject ℤ ℕ} (h : Tagged r) : RowMergeable r := by
  intro key x hx
  have hkind := h _ (mem_of_lookup hx)
  split_ifs at hkind
  · obtain ⟨items, rfl⟩ := exists_array hkind
    exact .array items
  · cases x with
    | i64 v => exact .i64 v
    | u64 v => exact .u64 v
    | _ => cases hkind

theorem Tagged.agree {r s : RowObject ℤ ℕ} (hr : Tagged r) (hs : Tagged s) :
    RowsAgree taggedPolicy r s := by
  intro key fn x y hfn hx hy
  have hkind := hr _ (mem_of_lookup hx)
  have hkind' := hs _ (mem_of_lookup hy)
  by_cases hkey : key = "tags"
  · subst hkey
    obtain rfl : MergeFn.setUnion = fn := Except.ok.inj hfn
    exact .inl ⟨hkind, hkind'⟩
  · rw [functionFor_other hkey] at hfn
    obtain rfl : MergeFn.max = fn := Except.ok.inj hfn
    rw [if_neg hkey] at hkind hkind'
    exact .inl ⟨hkind, hkind'⟩

def sampleRows : List (RowObject ℤ ℕ) :=
  [[("n", .i64 5), ("tags", .json (.array [1, 2]))], [("n", .u64 7)],
    [("n", .i64 6), ("tags", .json (.array [3, 1]))]]

/-- Two replicas that merge three rows in different orders. -/
theorem mergeRows_orderFree_sample :
    ∃ m m', mergeInOrder exactOps noWasm taggedPolicy sampleRows = .ok m ∧
      mergeInOrder exactOps noWasm taggedPolicy sampleRows.reverse = .ok m' ∧ RowSame m m' := by
  have htagged : ∀ r ∈ sampleRows, Tagged r := by
    intro r hr
    simp only [sampleRows, List.mem_cons, List.not_mem_nil, or_false] at hr
    rcases hr with rfl | rfl | rfl <;> simp [Tagged, toArray, toInt]
  have hfree : taggedPolicy.OrderFree := by
    refine ⟨⟨rfl, .inl rfl⟩, fun column hcolumn => ?_⟩
    rw [List.mem_singleton.mp hcolumn]
    exact ⟨rfl, .inr (.inr rfl)⟩
  exact (mergeRows_orderFree exactOps ⟨fun _ _ => rfl, fun _ _ => rfl⟩ noWasm hfree
    (fun r hr => (htagged r hr).mergeable)
    fun r hr s hs => (htagged r hr).agree (htagged s hs)).2.2.2 _ (List.reverse_perm _).symm

/-- Of a number and NULL `max` leaves the one that comes later. -/
theorem max_with_null :
    ¬ ∃ m m', mergeRowsWithWasm exactOps noWasm samplePolicy [("n", .i64 5)] [("n", .null)] = .ok m ∧
      mergeRowsWithWasm exactOps noWasm samplePolicy [("n", .null)] [("n", .i64 5)] = .ok m' ∧
      RowSame m m' := by
  rintro ⟨m, m', hm, hm', hsame⟩
  have hfn : ∀ key, mergeFnFromRef (samplePolicy.functionFor key) = .ok .max := fun key => rfl
  obtain ⟨r, hr, hlookup⟩ := mergeRowsWithWasm_ok exactOps noWasm [("n", .i64 5)] [("n", .null)] hfn
  obtain ⟨r', hr', hlookup'⟩ :=
    mergeRowsWithWasm_ok exactOps noWasm [("n", .null)] [("n", .i64 5)] hfn
  obtain rfl := Except.ok.inj (hm.symm.trans hr)
  obtain rfl := Except.ok.inj (hm'.symm.trans hr')
  have hn := hsame "n"
  rw [hlookup, hlookup'] at hn
  cases hn with
  | some h => cases h

end Samples

end SkeinDB.Merge
