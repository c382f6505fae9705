import SkeinDB.Wal.TornTail
import Mathlib.Data.List.DropRight

/-!
# Committed-transaction recovery

`WalReader::recover` folds the scanned records over one map of pending
transactions. A commit returns the mutations logged for its id since the id was
last committed or aborted: a `BEGIN_TXN` overwrites the pending begin LSN and
leaves the pending mutations in place. The recovered state is therefore the one a
begin would delimit exactly when no mutation lies between the two delimiters.
-/
namespace SkeinDB.Wal
open SkeinDB.Codec SkeinDB.Format

structure WalMutation where
  lsn : UInt64
  flags : UInt16
  payload : Bytes
  deriving DecidableEq, Repr

structure RecoveredTxn where
  txnId : UInt64
  beginLsn : Option UInt64
  commitLsn : UInt64
  mutations : List WalMutation
  deriving DecidableEq, Repr

structure WalRecovery where
  txns : List RecoveredTxn
  lastValidLsn : UInt64
  truncatedTail : Bool
  discardedTailBytes : ℕ
  tailError : Option WalError
  deriving DecidableEq, Repr

structure PendingTxn where
  beginLsn : Option UInt64 := none
  mutations : List WalMutation := []

/-- The loop state of `recover`. The `HashMap` of pending transactions is only looked up,
so it is its lookup function. -/
structure RecoverState where
  pending : UInt64 → Option PendingTxn := fun _ => none
  txns : List RecoveredTxn := []
  lastValidLsn : UInt64 := 0

/-- One record of the recovery loop. -/
def recoverStep (s : RecoverState) (r : WalRecord) : RecoverState :=
  let txnId := r.txnId
  let lsn := r.lsn
  let staged := (s.pending txnId).getD {}
  match r.body with
  | .beginTxn =>
    { s with
      pending := Function.update s.pending txnId (some { staged with beginLsn := some lsn })
      lastValidLsn := lsn }
  | .mutation payload =>
    { s with
      pending := Function.update s.pending txnId
        (some { staged with mutations := staged.mutations ++ [⟨lsn, r.flags, payload⟩] })
      lastValidLsn := lsn }
  | .commitTxn =>
    { pending := Function.update s.pending txnId none
      txns := s.txns ++ [⟨txnId, staged.beginLsn, lsn, staged.mutations⟩]
      lastValidLsn := lsn }
  | .abortTxn =>
    { s with pending := Function.update s.pending txnId none, lastValidLsn := lsn }

def recoverRecords (records : List WalRecord) : RecoverState := records.foldl recoverStep {}

def WalReader.recover (reader : WalReader) : Except WalError WalRecovery := do
  let scan ← reader.scanLenient
  let tailLen := reader.file.length - fileHeaderLen
  let discardedTailBytes := if scan.truncatedTail then tailLen - scan.validBytes else 0
  let s := recoverRecords scan.records
  .ok ⟨s.txns, s.lastValidLsn, scan.truncatedTail, discardedTailBytes, scan.tailError⟩

/-- A `BEGIN_TXN` of the id. -/
def begins (txnId : UInt64) (r : WalRecord) : Bool := r.txnId == txnId && r.body == .beginTxn

/-- A `COMMIT_TXN` or `ABORT_TXN` of the id. -/
def ends (txnId : UInt64) (r : WalRecord) : Bool :=
  r.txnId == txnId && (r.body == .commitTxn || r.body == .abortTxn)

/-- What a record mutates on behalf of the id. -/
def mutationOf (txnId : UInt64) (r : WalRecord) : Option WalMutation :=
  match r.body with
  | .mutation payload => if r.txnId = txnId then some ⟨r.lsn, r.flags, payload⟩ else none
  | _ => none

/-- The mutations of the id since its most recent `BEGIN_TXN`, or since the start of the log
when there is none. -/
def sinceBegin (txnId : UInt64) (log : List WalRecord) : List WalMutation :=
  (log.rtakeWhile (fun r => !begins txnId r)).filterMap (mutationOf txnId)

/-- The mutations of the id since its most recent commit or abort. -/
def sinceEnd (txnId : UInt64) (log : List WalRecord) : List WalMutation :=
  (log.rtakeWhile (fun r => !ends txnId r)).filterMap (mutationOf txnId)

/-- The commit records of a log, each with the records before it. -/
def commitsFrom : List WalRecord → List WalRecord → List (List WalRecord × WalRecord)
  | _, [] => []
  | before, r :: rs =>
    let later := commitsFrom (before ++ [r]) rs
    if r.body = .commitTxn then (before, r) :: later else later

def commits (log : List WalRecord) : List (List WalRecord × WalRecord) := commitsFrom [] log

/-- One transaction per commit record, with the mutations logged since its begin. -/
def RecoversExactly (log : List WalRecord) (txns : List RecoveredTxn) : Prop :=
  txns.map (fun t => (t.txnId, t.commitLsn, t.mutations)) =
    (commits log).map (fun c => (c.2.txnId, c.2.lsn, sinceBegin c.2.txnId c.1))

/-- The mutations of a transaction whose id was begun again before it ended are not
recovered; records are told apart by their LSNs. -/
def DropsUnfinished (log : List WalRecord) (txns : List RecoveredTxn) : Prop :=
  ∀ before b mid m mid' b' after txnId,
    log = before ++ b :: (mid ++ m :: (mid' ++ b' :: after)) →
    begins txnId b → begins txnId b' → (mutationOf txnId m).isSome →
    (∀ r ∈ mid ++ m :: mid', !ends txnId r) →
    ∀ t ∈ txns, ∀ u ∈ t.mutations, u.lsn ≠ m.lsn

/-- The records strictly between two positions. -/
def window (log : List WalRecord) (i j : ℕ) : List WalRecord := (log.take j).drop (i + 1)

/-- Between a mutation and a later commit of the same id, the id begins again exactly when
it ends. -/
def DelimitersAgree (log : List WalRecord) : Prop :=
  ∀ i j : Fin log.length, i < j → (log.get j).body = .commitTxn →
    (mutationOf (log.get j).txnId (log.get i)).isSome →
    ((window log i j).any (begins (log.get j).txnId) =
      (window log i j).any (ends (log.get j).txnId))

instance (log : List WalRecord) : Decidable (DelimitersAgree log) :=
  inferInstanceAs (Decidable (∀ i j : Fin log.length, i < j →
    (log.get j).body = .commitTxn → (mutationOf (log.get j).txnId (log.get i)).isSome →
    ((window log i j).any (begins (log.get j).txnId) =
      (window log i j).any (ends (log.get j).txnId))))

section Runs
variable {α β : Type*} {f : α → Option β} {p q : α → Bool}

/-- Splitting off an element of `l ++ [r]`: either `r` itself or one of `l`. -/
theorem forall_split_concat {l : List α} {r : α} {P : α → List α → Prop} :
    (∀ l₁ a l₂, l ++ [r] = l₁ ++ a :: l₂ → P a l₂) ↔
      P r [] ∧ ∀ l₁ a l₂, l = l₁ ++ a :: l₂ → P a (l₂ ++ [r]) := by
  constructor
  · intro h
    refine ⟨h l r [] rfl, fun l₁ a l₂ hl => h l₁ a (l₂ ++ [r]) ?_⟩
    rw [hl, List.append_assoc, List.cons_append]
  · rintro ⟨hr, h⟩ l₁ a l₂ hl
    rcases List.eq_nil_or_concat l₂ with rfl | ⟨l₂, b, rfl⟩
    · obtain ⟨rfl, hra⟩ := List.append_inj' hl rfl
      cases hra
      exact hr
    · rw [List.concat_eq_append, ← List.cons_append, ← List.append_assoc] at hl
      obtain ⟨hfront, hrb⟩ := List.append_inj' hl rfl
      cases hrb
      simpa using h l₁ a l₂ hfront

/-- A filtered terminal run is empty when every hit is followed by a stopper. -/
theorem filterMap_rtakeWhile_eq_nil (hp : ∀ a, p a = false → f a = none) (l : List α) :
    (l.rtakeWhile p).filterMap f = [] ↔
      ∀ l₁ a l₂, l = l₁ ++ a :: l₂ → (f a).isSome → l₂.all p = false := by
  induction l using List.reverseRecOn with
  | nil => simp
  | append_singleton l r ih =>
    rw [forall_split_concat (P := fun a l₂ => (f a).isSome → l₂.all p = false)]
    cases hr : p r with
    | false => simp [hr, hp r hr]
    | true =>
      simp only [List.rtakeWhile_concat, hr, if_true, List.filterMap_append,
        List.append_eq_nil_iff, ih, List.all_append, List.all_cons, List.all_nil,
        Bool.and_true]
      cases hf : f r with
      | none => simp [hf]
      | some b => simp [hf]

/-- Two terminal runs contain the same hits when every hit is followed by a stopper of the
one exactly when it is followed by a stopper of the other. -/
theorem filterMap_rtakeWhile_eq_iff (hp : ∀ a, p a = false → f a = none)
    (hq : ∀ a, q a = false → f a = none) (l : List α) :
    (l.rtakeWhile p).filterMap f = (l.rtakeWhile q).filterMap f ↔
      ∀ l₁ a l₂, l = l₁ ++ a :: l₂ → (f a).isSome → l₂.all p = l₂.all q := by
  induction l using List.reverseRecOn with
  | nil => simp
  | append_singleton l r ih =>
    rw [forall_split_concat (P := fun a l₂ => (f a).isSome → l₂.all p = l₂.all q)]
    cases hpr : p r with
    | true =>
      cases hqr : q r with
      | true => simp [hpr, hqr, ih]
      | false =>
        have hnil := filterMap_rtakeWhile_eq_nil hp l
        simp [hpr, hqr, hq r hqr, hnil]
    | false =>
      cases hqr : q r with
      | true =>
        have hnil := filterMap_rtakeWhile_eq_nil hq l
        rw [eq_comm]
        simp [hpr, hqr, hp r hpr, hnil]
      | false => simp [hpr, hqr]

end Runs

theorem commitsFrom_concat (before log : List WalRecord) (r : WalRecord) :
    commitsFrom before (log ++ [r]) =
      commitsFrom before log ++ if r.body = .commitTxn then [(before ++ log, r)] else [] := by
  induction log generalizing before with
  | nil => simp [commitsFrom]
  | cons a log ih =>
    simp only [List.cons_append, commitsFrom, ih (before ++ [a]), List.append_assoc,
      List.nil_append]
    split <;> simp

theorem mem_commitsFrom {start log before : List WalRecord} {c : WalRecord} :
    (before, c) ∈ commitsFrom start log ↔
      c.body = .commitTxn ∧ ∃ mid after, log = mid ++ c :: after ∧ before = start ++ mid := by
  induction log generalizing start with
  | nil => simp [commitsFrom]
  | cons a log ih =>
    have hcons : (before, c) ∈ commitsFrom start (a :: log) ↔
        (a.body = .commitTxn ∧ before = start ∧ c = a) ∨
          (before, c) ∈ commitsFrom (start ++ [a]) log := by
      rw [commitsFrom]
      split
      · rename_i hbody
        simp [hbody]
      · rename_i hbody
        simp [hbody]
    rw [hcons, ih]
    constructor
    · rintro (⟨hbody, rfl, rfl⟩ | ⟨hbody, mid, after, rfl, rfl⟩)
      · exact ⟨hbody, [], log, rfl, by simp⟩
      · exact ⟨hbody, a :: mid, after, rfl, by simp⟩
    · rintro ⟨hbody, mid, after, hlog, rfl⟩
      cases mid with
      | nil =>
        cases hlog
        exact .inl ⟨hbody, by simp, rfl⟩
      | cons b mid =>
        cases hlog
        exact .inr ⟨hbody, mid, after, rfl, by simp⟩

theorem mem_commits {log before : List WalRecord} {c : WalRecord} :
    (before, c) ∈ commits log ↔ c.body = .commitTxn ∧ ∃ after, log = before ++ c :: after := by
  rw [commits, mem_commitsFrom]
  constructor
  · rintro ⟨hbody, mid, after, hlog, rfl⟩
    exact ⟨hbody, after, hlog⟩
  · rintro ⟨hbody, after, hlog⟩
    exact ⟨hbody, before, after, hlog, rfl⟩

theorem mutationOf_eq_none {txnId : UInt64} {r : WalRecord} (h : r.body.kind ≠ .mutation) :
    mutationOf txnId r = none := by
  cases hb : r.body <;> simp_all [mutationOf, WalRecordBody.kind]

theorem mutationOf_of_begins {txnId : UInt64} {r : WalRecord} (h : (!begins txnId r) = false) :
    mutationOf txnId r = none := by
  simp only [begins, Bool.not_eq_false', Bool.and_eq_true, beq_iff_eq] at h
  exact mutationOf_eq_none (by simp [h.2, WalRecordBody.kind])

theorem mutationOf_of_ends {txnId : UInt64} {r : WalRecord} (h : (!ends txnId r) = false) :
    mutationOf txnId r = none := by
  simp only [ends, Bool.not_eq_false', Bool.and_eq_true, Bool.or_eq_true, beq_iff_eq] at h
  rcases h.2 with hb | hb
  · exact mutationOf_eq_none (by simp [hb, WalRecordBody.kind])
  · exact mutationOf_eq_none (by simp [hb, WalRecordBody.kind])

theorem sinceEnd_concat (txnId : UInt64) (log : List WalRecord) (r : WalRecord) :
    sinceEnd txnId (log ++ [r]) =
      if ends txnId r then [] else sinceEnd txnId log ++ (mutationOf txnId r).toList := by
  rw [sinceEnd, sinceEnd, List.rtakeWhile_concat]
  cases hends : ends txnId r with
  | true => simp
  | false =>
    simp only [Bool.not_false, if_true, Bool.false_eq_true, if_false, List.filterMap_append]
    cases h : mutationOf txnId r <;> simp [h]

/-- The recovery loop: what is pending for an id are its mutations since it last ended, and
each commit has returned what was pending for it. -/
theorem recoverRecords_spec (log : List WalRecord) :
    (∀ txnId, (((recoverRecords log).pending txnId).getD {}).mutations = sinceEnd txnId log) ∧
      (recoverRecords log).txns.map (fun t => (t.txnId, t.commitLsn, t.mutations)) =
        (commits log).map (fun c => (c.2.txnId, c.2.lsn, sinceEnd c.2.txnId c.1)) := by
  induction log using List.reverseRecOn with
  | nil => exact ⟨fun _ => rfl, rfl⟩
  | append_singleton log r ih =>
    obtain ⟨hpending, htxns⟩ := ih
    have hstep : recoverRecords (log ++ [r]) = recoverStep (recoverRecords log) r := by
      rw [recoverRecords, List.foldl_append]
      rfl
    rw [hstep, commits, commitsFrom_concat, ← commits, List.nil_append]
    constructor
    · intro txnId
      have hx := hpending txnId
      rw [sinceEnd_concat]
      by_cases hid : r.txnId = txnId
      · subst hid
        cases hb : r.body <;>
          simp [recoverStep, hb, ends, mutationOf, hx]
      · have hid' : txnId ≠ r.txnId := fun h => hid h.symm
        cases hb : r.body <;>
          simp [recoverStep, hb, ends, mutationOf, hx, hid, hid']
    · cases hb : r.body <;> simp [recoverStep, hb, htxns, hpending]

/-- The condition on positions, read at the splits of the log. -/
theorem delimitersAgree_iff (log : List WalRecord) :
    DelimitersAgree log ↔
      ∀ before c, (before, c) ∈ commits log → sinceEnd c.txnId before = sinceBegin c.txnId before := by
  have hsplit (before : List WalRecord) (txnId : UInt64) :
      sinceEnd txnId before = sinceBegin txnId before ↔
        ∀ l₁ m l₂, before = l₁ ++ m :: l₂ → (mutationOf txnId m).isSome →
          l₂.any (begins txnId) = l₂.any (ends txnId) := by
    rw [sinceEnd, sinceBegin, filterMap_rtakeWhile_eq_iff (fun _ => mutationOf_of_ends)
      (fun _ => mutationOf_of_begins)]
    simp only [List.all_eq_not_any_not, Bool.not_not, Bool.not_inj_iff, eq_comm]
  simp only [hsplit, mem_commits]
  constructor
  · rintro h before c ⟨hbody, after, rfl⟩ l₁ m l₂ rfl hm
    have hi : l₁.length < ((l₁ ++ m :: l₂) ++ c :: after).length := by simp
    have hj : (l₁ ++ m :: l₂).length < ((l₁ ++ m :: l₂) ++ c :: after).length := by simp
    have hgi : ((l₁ ++ m :: l₂) ++ c :: after).get ⟨l₁.length, hi⟩ = m := by simp
    have hgj : ((l₁ ++ m :: l₂) ++ c :: after).get ⟨(l₁ ++ m :: l₂).length, hj⟩ = c := by simp
    have hwindow : window ((l₁ ++ m :: l₂) ++ c :: after) l₁.length (l₁ ++ m :: l₂).length = l₂ := by
      rw [window, List.take_left, List.drop_append]
      simp
    have := h ⟨l₁.length, hi⟩ ⟨(l₁ ++ m :: l₂).length, hj⟩ (by simp [Fin.lt_def]) (by rw [hgj, hbody])
      (by rw [hgj, hgi, hm])
    rwa [hgj, hwindow] at this
  · intro h i j hij hbody hm
    have hi : i.val < (log.take j).length := by
      rw [List.length_take]
      omega
    have htake : log.take j = log.take i ++ log.get i :: window log i j := by
      have hdrop := List.drop_eq_getElem_cons hi
      have hcut := List.take_append_drop i.val (log.take j)
      rw [hdrop, List.take_take, Nat.min_eq_left (by omega)] at hcut
      rw [← hcut]
      simp [window]
    refine h (log.take j) (log.get j) ⟨hbody, log.drop (j + 1), ?_⟩ (log.take i) (log.get i) _ htake hm
    simp

/-- The loop recovers exactly what the begins delimit, on exactly these logs. -/
theorem recoversExactly_iff (log : List WalRecord) :
    RecoversExactly log (recoverRecords log).txns ↔ DelimitersAgree log := by
  rw [RecoversExactly, (recoverRecords_spec log).2, delimitersAgree_iff, List.map_inj_left]
  constructor
  · intro h before c hc
    have := h (before, c) hc
    simpa using this
  · rintro h ⟨before, c⟩ hc
    simp [h before c hc]

/-- A log with consecutive LSNs splits in one way at each LSN. -/
theorem split_unique {log l₁ l₂ l₁' l₂' : List WalRecord} {m m' : WalRecord}
    (hlsns : log.map (fun r => r.lsn.toNat) = List.range' 1 log.length)
    (h : log = l₁ ++ m :: l₂) (h' : log = l₁' ++ m' :: l₂') (hlsn : m.lsn = m'.lsn) :
    l₁ = l₁' ∧ m = m' ∧ l₂ = l₂' := by
  have hpos (l : List WalRecord) (r : WalRecord) (tail : List WalRecord)
      (hl : log = l ++ r :: tail) : r.lsn.toNat = l.length + 1 := by
    have hget := congrArg (fun xs => xs[l.length]?) hlsns
    rw [hl] at hget
    simpa [Nat.add_comm] using hget
  have hlen : l₁.length = l₁'.length := by
    have h1 := hpos l₁ m l₂ h
    have h2 := hpos l₁' m' l₂' h'
    rw [hlsn] at h1
    omega
  obtain ⟨rfl, htail⟩ := List.append_inj (h.symm.trans h') hlen
  cases htail
  exact ⟨rfl, rfl, rfl⟩

/-- An element of a filtered terminal run, with the stopper-free run behind it. -/
theorem mem_sinceBegin {txnId : UInt64} {log : List WalRecord} {u : WalMutation}
    (h : u ∈ sinceBegin txnId log) :
    ∃ l₁ r l₂, log = l₁ ++ r :: l₂ ∧ mutationOf txnId r = some u ∧
      ∀ b ∈ l₂, begins txnId b = false := by
  rw [sinceBegin, List.mem_filterMap] at h
  obtain ⟨r, hr, hu⟩ := h
  obtain ⟨s, t, hst⟩ := List.append_of_mem hr
  obtain ⟨front, hfront⟩ := List.rtakeWhile_suffix (fun r => !begins txnId r) log
  refine ⟨front ++ s, r, t, ?_, hu, fun b hb => ?_⟩
  · rw [← hfront, hst, List.append_assoc]
  · have hmem : b ∈ log.rtakeWhile (fun r => !begins txnId r) := by
      rw [hst]
      simp [hb]
    simpa using List.mem_rtakeWhile_imp hmem

theorem mutationOf_lsn {txnId : UInt64} {r : WalRecord} {u : WalMutation}
    (h : mutationOf txnId r = some u) : u.lsn = r.lsn ∧ r.txnId = txnId := by
  cases hb : r.body <;> simp only [mutationOf, hb, reduceCtorEq] at h
  split at h
  · rename_i hid
    cases h
    exact ⟨rfl, hid⟩
  · cases h

/-- What the begins delimit never contains a mutation of an unfinished transaction. -/
theorem dropsUnfinished_of_recoversExactly {log : List WalRecord} {txns : List RecoveredTxn}
    (hlsns : log.map (fun r => r.lsn.toNat) = List.range' 1 log.length)
    (h : RecoversExactly log txns) : DropsUnfinished log txns := by
  intro before b mid m mid' b' after txnId hlog hb hb' hm hopen t ht u hu hlsn
  have hmem : (t.txnId, t.commitLsn, t.mutations) ∈
      (commits log).map (fun c => (c.2.txnId, c.2.lsn, sinceBegin c.2.txnId c.1)) := by
    rw [← h]
    exact List.mem_map.mpr ⟨t, ht, rfl⟩
  obtain ⟨⟨pre, c⟩, hc, heq⟩ := List.mem_map.mp hmem
  obtain ⟨hbody, post, hsplit⟩ := mem_commits.mp hc
  simp only [Prod.mk.injEq] at heq
  rw [← heq.2.2] at hu
  obtain ⟨l₁, r, l₂, rfl, hr, hfree⟩ := mem_sinceBegin hu
  obtain ⟨hru, hrid⟩ := mutationOf_lsn hr
  -- the recovered mutation is the one of the unfinished transaction
  obtain ⟨-, rfl, htail⟩ := split_unique hlsns
    (show log = (before ++ b :: mid) ++ m :: (mid' ++ b' :: after) by rw [hlog]; simp)
    (show log = l₁ ++ r :: (l₂ ++ c :: post) by rw [hsplit]; simp) (by rw [← hlsn, hru])
  obtain ⟨v, hv⟩ := Option.isSome_iff_exists.mp hm
  have hid : c.txnId = txnId := by rw [← hrid, (mutationOf_lsn hv).2]
  have hends : ends txnId c = true := by simp [ends, hid, hbody]
  have hcb : c ≠ b' := by
    rintro rfl
    simp [begins, hbody] at hb'
  -- so the commit ends the id before the second begin, or the begin lies in front of the commit
  rcases List.append_eq_append_iff.mp htail with ⟨gap, hl₂, hgap⟩ | ⟨gap, hmid', hgap⟩
  · cases gap with
    | nil =>
      cases hgap
      exact hcb rfl
    | cons x gap =>
      cases hgap
      have := hfree b' (by rw [hl₂]; simp)
      rw [hid] at this
      rw [this] at hb'
      cases hb'
  · cases gap with
    | nil =>
      cases hgap
      exact hcb rfl
    | cons x gap =>
      cases hgap
      have := hopen c (by rw [hmid']; simp)
      rw [hends] at this
      cases this

/-- Recovering the file of a log runs the loop over all of it. -/
theorem recover_written {w : WalWriter} {log : List WalRecord} (hw : Written w log) :
    WalReader.open w.file = .ok ⟨w.file⟩ ∧
      ∃ recovery, (WalReader.mk w.file).recover = .ok recovery ∧
        recovery.txns = (recoverRecords log).txns := by
  have hholds := hw.inv.holds
  obtain ⟨now, hfile⟩ := hholds.header
  constructor
  · rw [hfile]
    exact open_header now _
  · rw [WalReader.recover, WalReader.scanLenient, scan_holdsLog hholds false]
    exact ⟨_, rfl, rfl⟩

/-- Opening and recovering the file returns for each commit the mutations its begin
delimits, and none of an unfinished transaction. -/
def RecoveryExact (file : Bytes) (log : List WalRecord) : Prop :=
  ∃ reader recovery, WalReader.open file = .ok reader ∧ reader.recover = .ok recovery ∧
    RecoversExactly log recovery.txns ∧ DropsUnfinished log recovery.txns

/-- Recovery is exact on a log if and only if, between each mutation and each later commit
of the same id, the id begins again exactly when it ends. -/
theorem recovery_exact_iff {w : WalWriter} {log : List WalRecord} (hw : Written w log) :
    RecoveryExact w.file log ↔ DelimitersAgree log := by
  obtain ⟨hopen, recovery, hrecover, htxns⟩ := recover_written hw
  rw [← recoversExactly_iff, ← htxns]
  constructor
  · rintro ⟨reader, recovery', hopen', hrecover', hexact, -⟩
    rw [hopen] at hopen'
    cases hopen'
    rw [hrecover] at hrecover'
    cases hrecover'
    exact hexact
  · intro hexact
    exact ⟨_, recovery, hopen, hrecover, hexact,
      dropsUnfinished_of_recoversExactly hw.inv.lsns hexact⟩

/-- Two transactions that do not reuse an id before it ends are recovered exactly. -/
theorem recovery_exact_iff_committed :
    let records := [WalRecord.beginV1 7, .mutationV1 7 [1], .commitV1 7, .beginV1 7,
      .mutationV1 7 [2], .commitV1 7]
    ∃ w, (WalWriter.open 5 none >>= fun w => w.appendAll records) = .ok w ∧
      RecoveryExact w.file (stampLsns 1 records) := by
  intro records
  have hok : (WalWriter.open 5 none >>= fun w => w.appendAll records).toOption.isSome := by
    decide +kernel
  obtain ⟨w, hw, hrun⟩ := written_of_run records (by simp [records, WalRecord.beginV1,
    WalRecord.mutationV1, WalRecord.commitV1, WalRecord.newV1_wellFormed]) hok
  exact ⟨w, hrun, (recovery_exact_iff hw).mpr (by decide +kernel)⟩

/-- A transaction left unfinished is replayed by the commit that reuses its id: the second
begin does not clear the mutation logged under the first. -/
theorem recovery_inexact_reused_id :
    let records := [WalRecord.beginV1 7, .mutationV1 7 [1], .beginV1 7, .commitV1 7]
    ∃ w, (WalWriter.open 5 none >>= fun w => w.appendAll records) = .ok w ∧
      Written w (stampLsns 1 records) ∧ ¬ RecoveryExact w.file (stampLsns 1 records) := by
  intro records
  have hok : (WalWriter.open 5 none >>= fun w => w.appendAll records).toOption.isSome := by
    decide +kernel
  obtain ⟨w, hw, hrun⟩ := written_of_run records (by simp [records, WalRecord.beginV1,
    WalRecord.mutationV1, WalRecord.commitV1, WalRecord.newV1_wellFormed]) hok
  obtain ⟨hopen, recovery, hrecover, htxns⟩ := recover_written hw
  refine ⟨w, hrun, hw, ?_⟩
  rintro ⟨reader, recovery', hopen', hrecover', hexact, -⟩
  rw [hopen] at hopen'
  cases hopen'
  rw [hrecover] at hrecover'
  cases hrecover'
  rw [RecoversExactly, htxns] at hexact
  revert hexact
  decide +kernel

end SkeinDB.Wal
