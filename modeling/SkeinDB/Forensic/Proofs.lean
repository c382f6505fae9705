import SkeinDB.Forensic.Chain

/-!
# Forensic queries and their proofs

`skeindb/src/engine.rs`: a query collects records of the chain and says whether they are complete;
an auditor checks a list of records by its hash links.
-/
namespace SkeinDB.Forensic
open SkeinDB.Codec SkeinDB.Tables

variable {Hash : Type}

structure ForensicQueryParams (Hash : Type) where
  table : Option (String × String) := none
  op : Option String := none
  filter : Option (ForensicRecord Hash → Except String Bool) := none
  fromId : Option ℕ := none
  toId : Option ℕ := none
  limit : Option ℕ := none

structure ForensicProof (Hash : Type) where
  contiguous : Bool
  fromId : ℕ
  toId : ℕ
  startHash : Option Hash
  endHash : Option Hash
  precedingHash : Option Hash
  followingHash : Option Hash
  completeChainRange : Bool
  chainHead : Option Hash
  recordCount : ℕ

structure ForensicQueryResult (Hash : Type) where
  records : List (ForensicRecord Hash)
  proof : ForensicProof Hash

section Query
variable (genesis : Hash) (q : ForensicQueryParams Hash)

def ForensicQueryParams.inRange (rec : ForensicRecord Hash) : Bool :=
  q.fromId.getD 0 ≤ rec.id && rec.id ≤ q.toId.getD u64Max

/-- The tests that come before the filter. -/
def ForensicQueryParams.selects (rec : ForensicRecord Hash) : Bool :=
  q.inRange rec && q.op.all (· == rec.op) && q.table.all (· == (rec.db, rec.table))

def ForensicQueryParams.passes (rec : ForensicRecord Hash) : Except String Bool :=
  q.filter.elim (.ok true) fun filter => filter rec

def ForensicQueryParams.cap : ℕ := min (q.limit.getD 200) 1000

/-- Walk along the chain, until there are as many records as the limit allows. -/
def collect (records : List (ForensicRecord Hash)) :
    List (ForensicRecord Hash) → Except String (List (ForensicRecord Hash))
  | [] => .ok records
  | rec :: rest =>
    if q.selects rec then do
      if ← q.passes rec then
        if q.cap ≤ (records ++ [rec]).length then .ok (records ++ [rec])
        else collect (records ++ [rec]) rest
      else collect records rest
    else collect records rest

/-- The records' ids follow one another. -/
def consecutive (records : List (ForensicRecord Hash)) : Bool :=
  (records.zip records.tail).all fun w => w.2.id == (w.1.id + 1) % (u64Max + 1)

def forensicIndexById (records : List (ForensicRecord Hash)) (id : ℕ) : Option ℕ :=
  records.findIdx? fun rec => rec.id == id

def precedingHash (chain records : List (ForensicRecord Hash)) : Option Hash := do
  let idx ← forensicIndexById chain (← records.head?).id
  if idx = 0 then some genesis else (chain[idx - 1]?).map (·.hash)

def followingHash (chain records : List (ForensicRecord Hash)) : Option Hash := do
  let idx ← forensicIndexById chain (← records.getLast?).id
  (chain[idx + 1]?).map (·.hash)

def forensicQuery (chain : List (ForensicRecord Hash)) :
    Except String (ForensicQueryResult Hash) := do
  let records ← collect q [] chain
  let contiguous := consecutive records && q.table.isNone && q.op.isNone
  return {
    records
    proof := {
      contiguous
      fromId := q.fromId.getD 0
      toId := q.toId.getD u64Max
      startHash := records.head?.map (·.hash)
      endHash := records.getLast?.map (·.hash)
      precedingHash := if contiguous then precedingHash genesis chain records else none
      followingHash := if contiguous then followingHash chain records else none
      completeChainRange := contiguous
      chainHead := chain.getLast?.map (·.hash)
      recordCount := records.length } }

end Query

section Verify
variable [DecidableEq Hash] (forensicRecordHash : Hash → ForensicEvent → Hash)

structure ForensicVerifyResult (Hash : Type) where
  ok : Bool
  badIndex : Option ℕ
  reason : Option String
  headHash : Option Hash

def verifyFrom (prevHash : Hash) (idx : ℕ) :
    List (ForensicRecord Hash) → ForensicVerifyResult Hash
  | [] => ⟨true, none, none, some prevHash⟩
  | rec :: rest =>
    if rec.prevHash ≠ prevHash then ⟨false, some idx, some "prev_hash_mismatch", none⟩
    else if forensicRecordHash rec.prevHash rec.toForensicEvent ≠ rec.hash then
      ⟨false, some idx, some "hash_mismatch", none⟩
    else verifyFrom rec.hash (idx + 1) rest

def forensicVerify (records : List (ForensicRecord Hash)) (startHash : Option Hash) :
    ForensicVerifyResult Hash :=
  match records with
  | [] => ⟨true, none, none, startHash⟩
  | first :: rest =>
    verifyFrom forensicRecordHash (startHash.getD first.prevHash) 0 (first :: rest)

/-- What is accepted is linked, and the other way round. -/
theorem verifyFrom_ok (records : List (ForensicRecord Hash)) (prevHash : Hash) (idx : ℕ) :
    (verifyFrom forensicRecordHash prevHash idx records).ok = true ↔
      Linked ForensicRecord.prevHash ForensicRecord.hash (Sealed forensicRecordHash) prevHash
        records := by
  induction records generalizing prevHash idx with
  | nil => exact ⟨fun _ => trivial, fun _ => rfl⟩
  | cons rec rest ih =>
    rw [verifyFrom, Linked]
    by_cases hprev : rec.prevHash = prevHash
    · rw [if_neg (not_not_intro hprev)]
      by_cases hhash : forensicRecordHash rec.prevHash rec.toForensicEvent = rec.hash
      · rw [if_neg (not_not_intro hhash), ih]
        exact ⟨fun hrest => ⟨hprev, hhash.symm, hrest⟩, fun h => h.2.2⟩
      · rw [if_pos hhash]
        exact ⟨fun h => (by cases h), fun h => absurd h.2.1.symm hhash⟩
    · rw [if_pos hprev]
      exact ⟨fun h => (by cases h), fun h => absurd h.1 hprev⟩

theorem verifyFrom_head {records : List (ForensicRecord Hash)} {prevHash : Hash} {idx : ℕ}
    (h : Linked ForensicRecord.prevHash ForensicRecord.hash (Sealed forensicRecordHash) prevHash
      records) : (verifyFrom forensicRecordHash prevHash idx records).headHash =
        some (headHash ForensicRecord.hash prevHash records) := by
  induction records generalizing prevHash idx with
  | nil => rfl
  | cons rec rest ih =>
    obtain ⟨hprev, hhash, hrest⟩ := h
    rw [verifyFrom, if_neg (not_not_intro hprev), if_neg (not_not_intro hhash.symm), ih hrest,
      headHash_cons]

theorem forensicVerify_ok (records : List (ForensicRecord Hash)) (startHash : Hash) :
    (forensicVerify forensicRecordHash records (some startHash)).ok = true ↔
      Linked ForensicRecord.prevHash ForensicRecord.hash (Sealed forensicRecordHash) startHash
        records := by
  rcases records with _ | ⟨first, rest⟩
  · exact ⟨fun _ => trivial, fun _ => rfl⟩
  · exact verifyFrom_ok forensicRecordHash (first :: rest) startHash 0

theorem forensicVerify_head {records : List (ForensicRecord Hash)} {startHash : Hash}
    (h : Linked ForensicRecord.prevHash ForensicRecord.hash (Sealed forensicRecordHash) startHash
      records) : (forensicVerify forensicRecordHash records (some startHash)).headHash =
        some (headHash ForensicRecord.hash startHash records) := by
  rcases records with _ | ⟨first, rest⟩
  · rfl
  · exact verifyFrom_head forensicRecordHash h

end Verify

section Records
variable {q : ForensicQueryParams Hash} {chain records : List (ForensicRecord Hash)}

def ForensicQueryParams.matches (q : ForensicQueryParams Hash) (rec : ForensicRecord Hash) : Bool :=
  q.selects rec && (q.passes rec).toOption.getD false

/-- The records that a query gathers are the first ones that match: as many as its limit allows,
and one for a limit of zero. -/
theorem collect_ok (chain : List (ForensicRecord Hash)) {before : List (ForensicRecord Hash)}
    (hroom : before.length < max q.cap 1) (h : collect q before chain = .ok records) :
    records = before ++ (chain.filter q.matches).take (max q.cap 1 - before.length) := by
  induction chain generalizing before with
  | nil =>
    cases h
    rw [List.filter_nil, List.take_nil, List.append_nil]
  | cons rec rest ih =>
    rw [collect] at h
    cases hsel : q.selects rec
    · rw [hsel] at h
      rw [List.filter_cons_of_neg (by rw [ForensicQueryParams.matches, hsel]; exact Bool.false_ne_true)]
      exact ih hroom h
    · rw [hsel, if_pos rfl] at h
      rcases hpass : q.passes rec with e | hit
      · rw [hpass] at h
        cases h
      · rw [hpass] at h
        change (if hit = true then _ else _) = _ at h
        have hmatches : q.matches rec = hit := by
          rw [ForensicQueryParams.matches, hsel, hpass]
          rfl
        cases hit
        · rw [List.filter_cons_of_neg (by rw [hmatches]; exact Bool.false_ne_true)]
          exact ih hroom h
        · rw [List.filter_cons_of_pos hmatches]
          have hlength : (before ++ [rec]).length = before.length + 1 := by
            rw [List.length_append, List.length_singleton]
          obtain ⟨n, hn⟩ := Nat.exists_eq_add_of_lt hroom
          have htake : max q.cap 1 - before.length = n + 1 := by omega
          rw [htake, List.take_succ_cons]
          rw [if_pos rfl] at h
          split at h
          · rename_i hfull
            cases h
            have hzero : n = 0 := by omega
            rw [hzero, List.take_zero]
          · rename_i hfree
            have hrest := ih (by omega) h
            have hleft : max q.cap 1 - (before ++ [rec]).length = n := by omega
            rw [hrest, hleft, List.append_assoc]
            rfl

theorem forensicQuery_ok {genesis : Hash} {result : ForensicQueryResult Hash}
    (h : forensicQuery genesis q chain = .ok result) :
    result.records = (chain.filter q.matches).take (max q.cap 1) ∧
      result.proof.completeChainRange =
        (consecutive result.records && q.table.isNone && q.op.isNone) ∧
      (result.proof.completeChainRange = true →
        result.proof.precedingHash = precedingHash genesis chain result.records) := by
  rw [forensicQuery] at h
  rcases hcollect : collect q [] chain with e | records
  · rw [hcollect] at h
    cases h
  · rw [hcollect] at h
    cases h
    have hrecords := collect_ok chain (Nat.lt_of_lt_of_le Nat.zero_lt_one (Nat.le_max_right _ _))
      hcollect
    exact ⟨hrecords, rfl, fun hcomplete => if_pos hcomplete⟩

theorem sorted_of_numbered (h : Numbered chain) : chain.Pairwise fun a b => a.id ≤ b.id := by
  refine List.pairwise_iff_getElem.mpr fun i j hi hj hij => ?_
  rw [h i _ (List.getElem?_eq_getElem hi), h j _ (List.getElem?_eq_getElem hj)]
  omega

/-- The records of a range are a segment of the chain, and the reported hash is the one before
it. -/
theorem range_segment {genesis : Hash} (h : Numbered chain) : ∃ i j, i ≤ j ∧ j ≤ chain.length ∧
    chain.filter q.inRange = (chain.take j).drop i ∧
      precedingHash genesis chain (chain.filter q.inRange) =
        if i < j then some (headHash ForensicRecord.hash genesis (chain.take i)) else none := by
  obtain ⟨i, j, hij, hj, hfilter, hbefore⟩ := @filter_eq_segment _ chain (fun rec => rec.id)
    (q.fromId.getD 0) (q.toId.getD u64Max) (sorted_of_numbered h)
  have hrange : chain.filter q.inRange = (chain.take j).drop i := hfilter
  refine ⟨i, j, hij, hj, hrange, ?_⟩
  rcases hij.lt_or_eq with hlt | rfl
  · have hi : i < chain.length := hlt.trans_le hj
    have hhead : (chain.filter q.inRange).head? = some chain[i] := by
      rw [hrange, List.head?_drop, List.getElem?_take_of_lt hlt, List.getElem?_eq_getElem hi]
    have hin : q.inRange chain[i] = true :=
      (List.mem_filter.mp (List.mem_of_head? hhead)).2
    have hindex : forensicIndexById chain chain[i].id = some i := by
      refine List.findIdx?_eq_some_iff_getElem.mpr ⟨hi, beq_self_eq_true _, fun k hk => ?_⟩
      have hlow := hbefore k hk _ (List.getElem?_eq_getElem (hk.trans hi))
      have hge := (Bool.and_eq_true_iff.mp hin).1
      rw [decide_eq_true_iff] at hge
      have hne : chain[k].id ≠ chain[i].id := by omega
      simp [hne]
    rw [if_pos hlt, precedingHash, hhead]
    change (forensicIndexById chain chain[i].id >>= _) = _
    rw [hindex]
    change (if i = 0 then _ else _) = _
    rcases i with _ | i
    · rfl
    · have hlast : chain.take (i + 1) = chain.take i ++ [chain[i]] :=
        (List.take_append_getElem (Nat.lt_of_succ_lt hi)).symm
      rw [if_neg (Nat.succ_ne_zero i), Nat.add_sub_cancel,
        List.getElem?_eq_getElem (Nat.lt_of_succ_lt hi), hlast, headHash_snoc]
      rfl
  · have hnil : chain.filter q.inRange = [] := by
      rw [hrange]
      exact List.drop_eq_nil_of_le (List.length_take_le _ _)
    rw [if_neg (lt_irrefl i), hnil]
    rfl

end Records

section Sound
variable [DecidableEq Hash] {forensicRecordHash : Hash → ForensicEvent → Hash} {genesis : Hash}
  {q : ForensicQueryParams Hash} {s : ForensicState Hash}

/-- A result that calls itself complete has every record of the range, and they pass the audit
from the reported hash on. -/
def CompleteRange (forensicRecordHash : Hash → ForensicEvent → Hash)
    (chain : List (ForensicRecord Hash)) (q : ForensicQueryParams Hash)
    (result : ForensicQueryResult Hash) : Prop :=
  result.proof.completeChainRange = true → result.records = chain.filter q.inRange ∧
    (forensicVerify forensicRecordHash result.records result.proof.precedingHash).ok = true

/-- A list of records that passes the audit between two hashes of the chain is what the chain has
between them. -/
def TamperEvident (forensicRecordHash : Hash → ForensicEvent → Hash) (genesis : Hash)
    (chain : List (ForensicRecord Hash)) : Prop :=
  ∀ (records : List (ForensicRecord Hash)) (i j : ℕ), i ≤ chain.length → j ≤ chain.length →
    let verified := forensicVerify forensicRecordHash records
      (some (headHash ForensicRecord.hash genesis (chain.take i)))
    verified.ok = true →
      verified.headHash = some (headHash ForensicRecord.hash genesis (chain.take j)) →
        records = (chain.take j).drop i

theorem tamperEvident (hinj : Function.Injective2 forensicRecordHash)
    (hgenesis : ∀ prevHash event, forensicRecordHash prevHash event ≠ genesis)
    {chain : List (ForensicRecord Hash)}
    (h : Linked ForensicRecord.prevHash ForensicRecord.hash (Sealed forensicRecordHash) genesis
      chain) : TamperEvident forensicRecordHash genesis chain := by
  intro records i j hi hj verified hok hhead
  have hlinked := (forensicVerify_ok forensicRecordHash records _).mp hok
  have hhead' := Option.some.inj ((forensicVerify_head forensicRecordHash hlinked).symm.trans hhead)
  have hsame : ∀ a b : ForensicRecord Hash, Sealed forensicRecordHash a →
      Sealed forensicRecordHash b → a.hash = b.hash → a = b := by
    rintro ⟨event, prevHash, hash⟩ ⟨event', prevHash', hash'⟩ ha hb hhash
    obtain ⟨rfl, rfl⟩ := hinj (ha.symm.trans (hhash.trans hb))
    obtain rfl : hash = hash' := hhash
    rfl
  refine segment_unique hsame (fun rec hrec => ?_) h hi hj hlinked hhead'
  rw [hrec]
  exact hgenesis rec.prevHash rec.toForensicEvent

/-- The query names a table or an operation, or what it finds up to its limit does not look like
a range of the chain, or it leaves out no record of its range. -/
def HonestQuery (q : ForensicQueryParams Hash) (chain : List (ForensicRecord Hash)) : Prop :=
  q.table.isSome ∨ q.op.isSome ∨
    consecutive ((chain.filter q.matches).take (max q.cap 1)) = false ∨
    (∀ rec ∈ chain, q.inRange rec = true → q.matches rec = true) ∧
      (chain.filter q.inRange).length ≤ max q.cap 1

omit [DecidableEq Hash] in
theorem inRange_of_matches {rec : ForensicRecord Hash} (h : q.matches rec = true) :
    q.inRange rec = true := by
  have hselects := (Bool.and_eq_true_iff.mp h).1
  exact (Bool.and_eq_true_iff.mp (Bool.and_eq_true_iff.mp hselects).1).1

/-- The matching records are those of the range just where every one of the range matches. -/
theorem matches_eq_range (q : ForensicQueryParams Hash) (chain : List (ForensicRecord Hash))
    (n : ℕ) : (chain.filter q.matches).take n = chain.filter q.inRange ↔
      (∀ rec ∈ chain, q.inRange rec = true → q.matches rec = true) ∧
        (chain.filter q.inRange).length ≤ n := by
  have hsub : (chain.filter q.matches).Sublist (chain.filter q.inRange) :=
    List.monotone_filter_right chain fun _ h => inRange_of_matches h
  constructor
  · intro heq
    have htaken : (chain.filter q.inRange).length ≤ (chain.filter q.matches).length := by
      rw [← heq]
      exact List.length_take_le' _ _
    have hall := hsub.eq_of_length_le htaken
    refine ⟨fun rec hrec hin => ?_, ?_⟩
    · have hmem : rec ∈ chain.filter q.matches := hall ▸ List.mem_filter.mpr ⟨hrec, hin⟩
      exact (List.mem_filter.mp hmem).2
    · rw [← heq]
      exact List.length_take_le _ _
  · rintro ⟨hall, hlength⟩
    have hsame : chain.filter q.matches = chain.filter q.inRange :=
      List.filter_congr fun rec hrec =>
        Bool.eq_iff_iff.mpr ⟨inRange_of_matches, hall rec hrec⟩
    rw [hsame, List.take_of_length_le hlength]

/-- The records of a range pass the audit from the hash before them on. -/
theorem range_verifies {chain : List (ForensicRecord Hash)} {next : ℕ}
    (h : WellFormed forensicRecordHash genesis chain next) :
    (forensicVerify forensicRecordHash (chain.filter q.inRange)
      (precedingHash genesis chain (chain.filter q.inRange))).ok = true := by
  obtain ⟨i, j, hij, hj, hrange, hpreceding⟩ := @range_segment Hash q chain genesis h.numbered
  rw [hpreceding]
  rcases hij.lt_or_eq with hlt | rfl
  · rw [if_pos hlt, forensicVerify_ok, hrange]
    exact linked_segment h.linked i j hij
  · have hnil : chain.filter q.inRange = [] := by
      rw [hrange]
      exact List.drop_eq_nil_of_le (List.length_take_le _ _)
    rw [hnil]
    rfl

/-- The proof of a query can be trusted just where neither its filter nor its limit has left out
a record without leaving a gap in the ids. -/
theorem forensic_proof_iff (hinj : Function.Injective2 forensicRecordHash)
    (hgenesis : ∀ prevHash event, forensicRecordHash prevHash event ≠ genesis)
    (hs : Reachable forensicRecordHash genesis s) {result : ForensicQueryResult Hash}
    (hquery : forensicQuery genesis q s.forensicChain = .ok result) :
    (CompleteRange forensicRecordHash s.forensicChain q result ∧
      TamperEvident forensicRecordHash genesis s.forensicChain) ↔
        HonestQuery q s.forensicChain := by
  have hchain := (invariant_of_reachable hs).chain
  obtain ⟨hrecords, hcomplete, hpreceding⟩ := forensicQuery_ok hquery
  have hrange := matches_eq_range q s.forensicChain (max q.cap 1)
  rw [← hrecords] at hrange
  constructor
  · rintro ⟨hresult, -⟩
    rw [HonestQuery, ← hrecords]
    by_contra hnot
    push Not at hnot
    obtain ⟨htable, hop, hconsecutive, hpart⟩ := hnot
    have hflag : result.proof.completeChainRange = true := by
      rw [hcomplete, Bool.eq_true_of_not_eq_false hconsecutive,
        Option.isNone_iff_eq_none.mpr (Option.not_isSome_iff_eq_none.mp htable),
        Option.isNone_iff_eq_none.mpr (Option.not_isSome_iff_eq_none.mp hop)]
      rfl
    obtain ⟨hall, hlength⟩ := hrange.mp (hresult hflag).1
    exact absurd hlength (Nat.not_le.mpr (hpart hall))
  · intro hhonest
    refine ⟨fun hflag => ?_, tamperEvident hinj hgenesis hchain.linked⟩
    have hflags := hcomplete.symm.trans hflag
    rw [Bool.and_eq_true, Bool.and_eq_true] at hflags
    obtain ⟨⟨hconsecutive, htable⟩, hop⟩ := hflags
    have hall : result.records = s.forensicChain.filter q.inRange := by
      rcases hhonest with hsome | hsome | hgap | hall
      · rw [Option.isNone_iff_eq_none.mp htable] at hsome
        cases hsome
      · rw [Option.isNone_iff_eq_none.mp hop] at hsome
        cases hsome
      · rw [← hrecords, hconsecutive] at hgap
        cases hgap
      · exact hrange.mpr hall
    rw [hpreceding hflag, hall]
    exact ⟨rfl, range_verifies hchain⟩

end Sound

section Sample

/-- A hash that keeps all it was given. -/
def sampleHash (prevHash : List ForensicEvent) (event : ForensicEvent) : List ForensicEvent :=
  event :: prevHash

theorem sampleHash_injective : Function.Injective2 sampleHash := by
  intro prevHash prevHash' event event' h
  obtain ⟨hevent, hprev⟩ := List.cons.inj h
  exact ⟨hprev, hevent⟩

def sampleEvent (table : String) : ForensicEvent := ⟨0, 5, "app", table, "insert", none, 1⟩

def sampleState : ForensicState (List ForensicEvent) :=
  (({} : ForensicState (List ForensicEvent)).appendForensicRecord sampleHash []
    (sampleEvent "users")).appendForensicRecord sampleHash [] (sampleEvent "orders")

theorem sampleState_reachable : Reachable sampleHash [] sampleState := .append _ (.append _ .fresh)

theorem forensic_proof_sample :
    ∃ result, forensicQuery [] { fromId := some 1 } sampleState.forensicChain = .ok result ∧
      ((@CompleteRange _ (Classical.decEq _) sampleHash sampleState.forensicChain
          { fromId := some 1 } result ∧
        @TamperEvident _ (Classical.decEq _) sampleHash [] sampleState.forensicChain) ↔
          HonestQuery { fromId := some 1 } sampleState.forensicChain) :=
  ⟨_, rfl, @forensic_proof_iff _ (Classical.decEq _) sampleHash [] _ sampleState sampleHash_injective
    (fun _ _ => List.cons_ne_nil _ _) sampleState_reachable _ rfl⟩

/-- A limit of one record out of two makes a proof that calls itself complete. -/
theorem forensic_limit_hides_record :
    ∃ result, Reachable sampleHash [] sampleState ∧
      forensicQuery [] { limit := some 1 } sampleState.forensicChain = .ok result ∧
        ¬ @CompleteRange _ (Classical.decEq _) sampleHash sampleState.forensicChain
          { limit := some 1 } result := by
  refine ⟨_, sampleState_reachable, rfl, fun h => ?_⟩
  have hlength := congrArg List.length (h rfl).1
  cases hlength

end Sample

end SkeinDB.Forensic
