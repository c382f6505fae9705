import SkeinDB.Changes.Subscription
import SkeinDB.Format.Primitives
import SkeinDB.Transition.Runs

/-!
# What subscribers receive

Changes, polls, acknowledgements, pauses and drains of sinks in any order. A reader that goes on
where it was passes every event once and gets those that its subscription selects, as long as
none of them has left the log before it was read. A poll checks this, and a drain does not.
-/
namespace SkeinDB.Changes
open SkeinDB.Tables SkeinDB.Transition SkeinDB.Format

/-- A consumer or a sink. It has passed the events from `start` on up to its cursor, each selected
or not when it was passed, and has been sent those with the numbers `delivered`. -/
structure Reader where
  start : ℕ
  cursor : ℕ
  passed : List (ChangeEvent × Bool) := []
  delivered : List ℕ := []

namespace Reader

def begin (offset : ℕ) : Reader := { start := offset, cursor := offset }

def advance (history : List ChangeEvent) (selects : ChangeEvent → Bool) (next : ℕ)
    (events : List ChangeEvent) (r : Reader) : Reader :=
  { r with
    cursor := next
    passed := r.passed ++ (between (·.seq) r.cursor next history).map fun e => (e, selects e)
    delivered := r.delivered ++ events.map (·.seq) }

/-- Every event was passed once and in order, and the selected ones were delivered. -/
structure Exact (history : List ChangeEvent) (r : Reader) : Prop where
  passed : r.passed.map Prod.fst = between (·.seq) r.start r.cursor history
  delivered : r.delivered = (r.passed.filter (·.2)).map (·.1.seq)

end Reader

section System
variable (fmt : Formats) {Q : Type}

/-- A query on a table that is gone selects nothing. -/
def Subscription.selection (queries : Queries Q) (sub : Subscription Q) : Selection :=
  match sub.target.selection fmt queries sub.options with
  | .ok selection => selection
  | .error _ => { selects := fun _ => false, sent := id }

/-- `history` are all events that were logged. -/
structure Feed (Q : Type) where
  log : ChangeLog
  history : List ChangeEvent := []
  queries : Queries Q
  subs : Subscriptions Q := {}
  consumers : String → Reader := fun _ => .begin 0
  sinks : String → Reader := fun _ => .begin 0

/-- `redefine` is a change of the catalog or of a view on which queries depend. -/
inductive FeedStep (Q : Type)
  | change (now : ℕ) (c : Change)
  | redefine (queries : Queries Q)
  | subscribe (target : SubscriptionTarget Q) (options : CdcSubscriptionOptions) (io : CdcIo)
  | poll (subId : String) (fromOffset limit : ℕ)
  | ack (subId : String) (offset : ℕ) (io : CdcIo)
  | setPaused (subId : String) (paused : Bool) (io : CdcIo)
  | close (subId : String) (io : CdcIo)
  | drain (subId : String) (limit : ℕ) (io : CdcIo)

namespace Feed

def changed (s : Feed Q) (now : ℕ) (c : Change) : Feed Q :=
  { s with
    log := s.log.emitChange now c
    history := s.history ++ [c.event ((s.log.changeSeq + 1) % 2 ^ 64) now] }

def subscribed (s : Feed Q) (id : String) (subs : Subscriptions Q) : Feed Q :=
  { s with
    subs := subs
    consumers := Function.update s.consumers id (.begin s.log.changeSeq)
    sinks := Function.update s.sinks id (.begin s.log.changeSeq) }

/-- A consumer that is told to take a snapshot goes on behind it. One that polls from where it is
gets the next events, and one that reads events again stays where it is. -/
def polled (s : Feed Q) (id : String) (sub : Subscription Q) (fromOffset : ℕ)
    (answer : CdcPollResult) : Feed Q :=
  let consumer := s.consumers id
  let next :=
    if answer.resnapshotRequired then .begin answer.nextOffset
    else if max fromOffset sub.ackedOffset = consumer.cursor then
      consumer.advance s.history (sub.selection fmt s.queries).selects answer.nextOffset answer.events
    else consumer
  { s with consumers := Function.update s.consumers id next }

def acked (s : Feed Q) (id : String) (offset : ℕ) (subs : Subscriptions Q) : Feed Q :=
  { s with
    subs := subs
    consumers := Function.update s.consumers id (.begin (max (s.consumers id).cursor offset)) }

def drained (s : Feed Q) (id : String) (sub : Subscription Q) (subs : Subscriptions Q)
    (events : List ChangeEvent) : Feed Q :=
  let sinkOffset := ((subs.subs id).map (·.sinkOffset)).getD sub.sinkOffset
  { s with
    subs := subs
    sinks := Function.update s.sinks id
      ((s.sinks id).advance s.history (sub.selection fmt s.queries).selects sinkOffset events) }

def step (s : Feed Q) : FeedStep Q → Option (Feed Q)
  | .change now c => some (s.changed now c)
  | .redefine queries => some { s with queries := queries }
  | .subscribe target options io =>
    (s.subs.subscribe io s.log target options).toOption.map fun (id, subs) => s.subscribed id subs
  | .poll id fromOffset limit => do
    let sub ← s.subs.subs id
    let answer ← (cdcPoll fmt s.queries s.log s.subs id fromOffset limit).toOption
    return s.polled fmt id sub fromOffset answer
  | .ack id offset io => (cdcAck io s.subs id offset).toOption.map (s.acked id offset)
  | .setPaused id paused io =>
    (cdcSetPaused io s.subs id paused).toOption.map fun subs => { s with subs := subs }
  | .close id io => (cdcClose io s.subs id).toOption.map fun subs => { s with subs := subs }
  | .drain id limit io => do
    let sub ← s.subs.subs id
    let (_, subs, events) := cdcSinkDrain fmt io s.queries s.log s.subs id limit
    return s.drained fmt id sub subs events

/-- No event that the sink has yet to get has left the log, and a drain with something to write
does not fail once it has written. -/
def Admissible (s : Feed Q) : FeedStep Q → Prop
  | .change _ _ => s.log.changeSeq + 1 < 2 ^ 64
  | .drain id _ io => ∀ sub, s.subs.subs id = some sub → ∀ e ∈ s.history,
      sub.sinkOffset < e.seq → (sub.selection fmt s.queries).selects e = true →
        e ∈ s.log.changes ∧ io.persist = none ∧ ∀ failure, io.write = some failure → failure.1 = 0
  | _ => True

/-- What a consumer has got since its last acknowledgement, and what a sink has got at all. -/
def Delivered (s : Feed Q) : Prop :=
  ∀ id sub, s.subs.subs id = some sub →
    ((s.consumers id).Exact s.history ∧ (s.consumers id).delivered.Pairwise (· < ·)) ∧
      (s.sinks id).Exact s.history ∧ (s.sinks id).delivered.Pairwise (· < ·) ∧
        (s.sinks id).cursor = sub.sinkOffset

end Feed

end System

section Pages
variable {fmt : Formats} {Q : Type} {queries : Queries Q} {log : ChangeLog}
  {history : List ChangeEvent} {sub : Subscription Q} {after limit next : ℕ}
  {events : List ChangeEvent}

theorem sent_seq (fmt : Formats) (queries : Queries Q) (sub : Subscription Q) (e : ChangeEvent) :
    ((sub.selection fmt queries).sent e).seq = e.seq := by
  rw [Subscription.selection]
  rcases hselection : sub.target.selection fmt queries sub.options with err | selection
  · rfl
  · cases htarget : sub.target with
    | table db table =>
      rw [htarget] at hselection
      cases hselection
      rfl
    | query queryId q args =>
      rw [htarget] at hselection
      obtain ⟨etag, -, hselection⟩ := bind_eq_ok hselection
      obtain ⟨tables, -, hselection⟩ := bind_eq_ok hselection
      cases hselection
      rfl

/-- What is collected are the first selected events of the log. -/
theorem collect_ok
    (h : cdcCollectEvents fmt queries log sub.target sub.options after limit = .ok (events, next)) :
    let selection := sub.selection fmt queries
    let page := (pending (·.seq) selection.selects after log.changes).take (max limit 1)
    events = page.map selection.sent ∧ next = pageEnd (·.seq) after page := by
  obtain ⟨selection, hselection, h⟩ := bind_eq_ok h
  have hpage : readPage (·.seq) selection.selects after limit log.changes [] after = _ :=
    readPage_eq log.changes [] (by simp)
  rw [hpage] at h
  cases h
  simp [Subscription.selection, hselection]

/-- As long as what a reader wants is still in the log, reading the log is reading all events. -/
theorem pending_changes (hretains : log.Retains history) {selects : ChangeEvent → Bool}
    (hkept : ∀ e ∈ history, after < e.seq → selects e = true → e ∈ log.changes) :
    pending (·.seq) selects after log.changes = pending (·.seq) selects after history := by
  set gone := history.length - log.cdcRetentionEvents
  have hsplit : history.take gone ++ log.changes = history := by
    rw [hretains.newest]
    exact List.take_append_drop gone history
  conv_rhs => rw [← hsplit]
  suffices hgone : (history.take gone).filter (fun e => after < e.seq ∧ selects e) = [] by
    rw [pending, pending, List.filter_append, hgone, List.nil_append]
  rw [List.filter_eq_nil_iff]
  intro e he hwants
  rw [decide_eq_true_eq] at hwants
  have hmem := List.mem_of_mem_take he
  have hseq := (hretains.mem_changes hmem).mp (hkept e hmem hwants.1 hwants.2)
  obtain ⟨i, hi, hget⟩ := List.mem_take_iff_getElem.mp he
  have hlt : i < history.length := by omega
  have hnumber := hretains.seq_eq hlt
  rw [List.get_eq_getElem, hget] at hnumber
  omega

/-- What a reader that misses nothing is sent. -/
structure Served (history : List ChangeEvent) (selection : Selection) (after limit : ℕ)
    (events : List ChangeEvent) (next : ℕ) : Prop where
  le : after ≤ next
  sent : events = ((between (·.seq) after next history).filter selection.selects).map selection.sent
  rest : events.length < max limit 1 → ∀ e ∈ history, next < e.seq → selection.selects e = false

theorem served_of_collect (hretains : log.Retains history)
    (hkept : ∀ e ∈ history, after < e.seq → (sub.selection fmt queries).selects e = true →
      e ∈ log.changes)
    (h : cdcCollectEvents fmt queries log sub.target sub.options after limit = .ok (events, next)) :
    Served history (sub.selection fmt queries) after limit events next := by
  obtain ⟨hevents, hnext⟩ := collect_ok h
  rw [pending_changes hretains hkept] at hevents hnext
  have hpos : 0 < max limit 1 := by omega
  refine ⟨?_, ?_, ?_⟩
  · rw [hnext]
    refine le_pageEnd fun d hd => ?_
    exact (mem_pending.mp (List.mem_of_mem_take hd)).2.1
  · rw [hnext, filter_between_pageEnd hretains.sorted hpos, hevents]
  · intro hshort e he habove
    rw [hevents, List.length_map] at hshort
    rw [hnext] at habove
    exact unwanted_of_short hretains.sorted hshort he habove

theorem next_le_of_collect (hretains : log.Retains history)
    (h : cdcCollectEvents fmt queries log sub.target sub.options after limit = .ok (events, next)) :
    next ≤ max after log.changeSeq := by
  obtain ⟨-, hnext⟩ := collect_ok h
  rw [hnext]
  refine pageEnd_le (le_max_left _ _) fun d hd => le_max_of_le_right ?_
  have hd := (mem_pending.mp (List.mem_of_mem_take hd)).1
  rw [hretains.newest] at hd
  exact (hretains.seq_le (List.mem_of_mem_drop hd)).2

end Pages

section Readers
variable {history : List ChangeEvent} {r : Reader} {latest offset next : ℕ} {selection : Selection}
  {events : List ChangeEvent}

/-- A reader that has passed anything has passed nothing that is yet to come. -/
structure Reader.Sound (history : List ChangeEvent) (latest : ℕ) (r : Reader) : Prop extends
    r.Exact history where
  le : r.start ≤ r.cursor
  past : r.start = r.cursor ∨ r.cursor ≤ latest

theorem Reader.sound_begin (history : List ChangeEvent) (latest offset : ℕ) :
    (Reader.begin offset).Sound history latest where
  passed := between_self.symm
  delivered := rfl
  le := le_rfl
  past := .inl rfl

theorem Reader.Sound.emit (h : r.Sound history latest) {e : ChangeEvent} (he : latest < e.seq)
    (hnext : latest ≤ next) : r.Sound (history ++ [e]) next where
  passed := by
    have hnone : between (·.seq) r.start r.cursor [e] = [] := by
      rcases h.past with hpast | hpast
      · rw [hpast]
        exact between_self
      · exact between_of_above fun d hd => by
          rw [List.mem_singleton.mp hd]
          exact hpast.trans_lt he
    rw [h.passed, between_append, hnone, List.append_nil]
  delivered := h.delivered
  le := h.le
  past := h.past.imp_right fun hpast => hpast.trans hnext

/-- A reader that is served from where it is stays exact. -/
theorem Reader.Sound.advance (h : r.Sound history latest)
    (hsorted : history.Pairwise (·.seq < ·.seq)) (hsent : ∀ e, (selection.sent e).seq = e.seq)
    (hle : r.cursor ≤ next) (hnext : next ≤ max r.cursor latest)
    (hevents : events =
      ((between (·.seq) r.cursor next history).filter selection.selects).map selection.sent) :
    (r.advance history selection.selects next events).Sound history latest where
  passed := by
    rw [Reader.advance, List.map_append, h.passed, List.map_map]
    exact (congrArg _ (List.map_id' _)).trans
      (between_append_between hsorted h.le hle)
  delivered := by
    have hseqs : events.map (·.seq) =
        ((between (·.seq) r.cursor next history).filter selection.selects).map (·.seq) := by
      rw [hevents, List.map_map]
      exact List.map_congr_left fun e _ => hsent e
    rw [Reader.advance, h.delivered, hseqs]
    dsimp only
    rw [List.filter_append, List.map_append, List.filter_map, List.map_map]
    rfl
  le := h.le.trans hle
  past := by
    rcases le_max_iff.mp hnext with hsame | hpast
    · exact h.past.imp (fun hpast => hpast.trans (le_antisymm hle hsame)) hsame.trans
    · exact .inr hpast

theorem Reader.Exact.ascending (h : r.Exact history)
    (hsorted : history.Pairwise (·.seq < ·.seq)) : r.delivered.Pairwise (· < ·) := by
  have hpassed : (r.passed.map Prod.fst).Pairwise (·.seq < ·.seq) := by
    rw [h.passed]
    exact hsorted.filter _
  rw [h.delivered, List.pairwise_map]
  exact (List.pairwise_map.mp hpassed).filter _

end Readers

section Run
variable {fmt : Formats} {Q : Type} {s s' : Feed Q} {id : String}

namespace Feed

/-- What every step keeps. -/
structure Inv (s : Feed Q) : Prop where
  retains : s.log.Retains s.history
  consumer : ∀ id sub, s.subs.subs id = some sub →
    (s.consumers id).Sound s.history s.log.changeSeq ∧ sub.ackedOffset ≤ (s.consumers id).cursor
  sink : ∀ id sub, s.subs.subs id = some sub →
    (s.sinks id).Sound s.history s.log.changeSeq ∧ (s.sinks id).cursor = sub.sinkOffset

theorem Inv.delivered (h : s.Inv) : s.Delivered := by
  intro id sub hsub
  have hconsumer := (h.consumer id sub hsub).1
  obtain ⟨hsink, hcursor⟩ := h.sink id sub hsub
  exact ⟨⟨hconsumer.toExact, hconsumer.ascending h.retains.sorted⟩, hsink.toExact,
    hsink.ascending h.retains.sorted, hcursor⟩

theorem Inv.changed (h : s.Inv) (hfits : s.log.changeSeq + 1 < 2 ^ 64) (now : ℕ) (c : Change) :
    (s.changed now c).Inv := by
  have hlast := h.retains.last
  have hseq : (s.log.changeSeq + 1) % 2 ^ 64 = s.log.changeSeq + 1 := Nat.mod_eq_of_lt hfits
  have hretains := @ChangeLog.Retains.emit _ _ c now h.retains (by rw [← hlast]; exact hfits)
  rw [← hlast] at hretains
  rw [Feed.changed, hseq]
  refine ⟨hretains, fun id sub hsub => ?_, fun id sub hsub => ?_⟩
  · obtain ⟨hsound, hacked⟩ := h.consumer id sub hsub
    refine ⟨hsound.emit (Nat.lt_succ_self _) ?_, hacked⟩
    rw [ChangeLog.emitChange, hseq]
    exact Nat.le_succ _
  · obtain ⟨hsound, hcursor⟩ := h.sink id sub hsub
    refine ⟨hsound.emit (Nat.lt_succ_self _) ?_, hcursor⟩
    rw [ChangeLog.emitChange, hseq]
    exact Nat.le_succ _

/-- The readers of one subscription change, and perhaps it, and nothing else. -/
theorem Inv.update (h : s.Inv) {subs : Subscriptions Q} {consumers sinks : String → Reader}
    (hothers : ∀ k, k ≠ id → subs.subs k = s.subs.subs k ∧ consumers k = s.consumers k ∧
      sinks k = s.sinks k)
    (hid : ∀ sub, subs.subs id = some sub →
      ((consumers id).Sound s.history s.log.changeSeq ∧ sub.ackedOffset ≤ (consumers id).cursor) ∧
        (sinks id).Sound s.history s.log.changeSeq ∧ (sinks id).cursor = sub.sinkOffset) :
    ({ s with subs, consumers, sinks } : Feed Q).Inv where
  retains := h.retains
  consumer k sub hsub := by
    by_cases hk : k = id
    · subst hk
      exact (hid sub hsub).1
    · obtain ⟨hsubs, hconsumers, -⟩ := hothers k hk
      dsimp only at hsub ⊢
      rw [hsubs] at hsub
      rw [hconsumers]
      exact h.consumer k sub hsub
  sink k sub hsub := by
    by_cases hk : k = id
    · subst hk
      exact (hid sub hsub).2
    · obtain ⟨hsubs, -, hsinks⟩ := hothers k hk
      dsimp only at hsub ⊢
      rw [hsubs] at hsub
      rw [hsinks]
      exact h.sink k sub hsub

theorem modify_ok {io : CdcIo} {subs subs' : Subscriptions Q}
    {f : Subscription Q → Option (Subscription Q)} (h : subs.modify io id f = .ok subs') :
    ∃ sub, subs.subs id = some sub ∧ subs'.subs = Function.update subs.subs id (f sub) := by
  rw [Subscriptions.modify] at h
  split at h
  · cases h
  · cases h
  · cases h
    exact ⟨_, ‹_›, rfl⟩

theorem toOption_eq_some {α : Type} {x : Except String α} {a : α} (h : x.toOption = some a) :
    x = .ok a := by
  cases x with
  | error e => cases h
  | ok b =>
    cases h
    rfl

/-- The horizon check finds out whether an event above the offset is gone. -/
theorem beyondHorizon_iff {log : ChangeLog} {history : List ChangeEvent}
    (h : log.Retains history) (offset : ℕ) :
    beyondHorizon log.currentCdcEarliestOffset offset = true ↔
      ∃ e ∈ history, offset < e.seq ∧ e ∉ log.changes := by
  have hfits := h.fits
  have hpos := log.retention_pos
  rw [h.earliest, beyondHorizon, saturatingSucc, u64Max]
  by_cases hnil : history = []
  · subst hnil
    simp
  · rw [if_neg hnil, Bool.and_eq_true, decide_eq_true_eq, decide_eq_true_eq]
    constructor
    · rintro ⟨-, hlt⟩
      have hidx : history.length - log.cdcRetentionEvents - 1 < history.length := by omega
      have hseq := h.seq_eq hidx
      refine ⟨history.get ⟨_, hidx⟩, List.get_mem _ _, by omega, ?_⟩
      rw [h.mem_changes (List.get_mem _ _)]
      omega
    · rintro ⟨e, he, hlt, hgone⟩
      rw [h.mem_changes he] at hgone
      have hseq := (h.seq_le he).2
      rw [h.last] at hseq
      omega

theorem poll_cases {queries : Queries Q} {log : ChangeLog} {subs : Subscriptions Q}
    {sub : Subscription Q} {fromOffset limit : ℕ} {answer : CdcPollResult}
    (hsub : subs.subs id = some sub)
    (h : cdcPoll fmt queries log subs id fromOffset limit = .ok answer) :
    (beyondHorizon log.currentCdcEarliestOffset (max fromOffset sub.ackedOffset) = true ∧
      answer.resnapshotRequired = true ∧ answer.nextOffset = log.currentCdcEarliestOffset - 1) ∨
    (beyondHorizon log.currentCdcEarliestOffset (max fromOffset sub.ackedOffset) = false ∧
      answer.resnapshotRequired = false ∧
      ((sub.paused = true ∧ answer.events = [] ∧
          answer.nextOffset = max fromOffset sub.ackedOffset) ∨
        sub.paused = false ∧ cdcCollectEvents fmt queries log sub.target sub.options
          (max fromOffset sub.ackedOffset) limit = .ok (answer.events, answer.nextOffset))) := by
  rw [cdcPoll, hsub] at h
  dsimp only at h
  by_cases hhorizon : beyondHorizon log.currentCdcEarliestOffset
      (max fromOffset sub.ackedOffset) = true
  · rw [if_pos hhorizon] at h
    cases h
    exact .inl ⟨hhorizon, rfl, rfl⟩
  · rw [if_neg hhorizon] at h
    rw [Bool.not_eq_true] at hhorizon
    cases hpaused : sub.paused with
    | true =>
      rw [hpaused, if_pos rfl] at h
      cases h
      exact .inr ⟨hhorizon, rfl, .inl ⟨rfl, rfl, rfl⟩⟩
    | false =>
      rw [hpaused, if_neg (by simp)] at h
      obtain ⟨⟨events, next⟩, hcollect, h⟩ := bind_eq_ok h
      cases h
      exact .inr ⟨hhorizon, rfl, .inr ⟨rfl, hcollect⟩⟩

/-- A poll that does not ask for a snapshot misses nothing. -/
theorem Inv.served_of_poll (h : s.Inv) {sub : Subscription Q} {fromOffset limit : ℕ}
    {answer : CdcPollResult} (hsub : s.subs.subs id = some sub)
    (hpoll : cdcPoll fmt s.queries s.log s.subs id fromOffset limit = .ok answer)
    (hreads : answer.resnapshotRequired = false) :
    let resume := max fromOffset sub.ackedOffset
    answer.nextOffset ≤ max resume s.log.changeSeq ∧ resume ≤ answer.nextOffset ∧
      answer.events = ((between (·.seq) resume answer.nextOffset s.history).filter
        (sub.selection fmt s.queries).selects).map (sub.selection fmt s.queries).sent ∧
      (sub.paused = false → Served s.history (sub.selection fmt s.queries) resume limit
        answer.events answer.nextOffset) := by
  rcases poll_cases hsub hpoll with ⟨-, hresnapshot, -⟩ | ⟨hhorizon, -, hread⟩
  · rw [hreads] at hresnapshot
    cases hresnapshot
  · dsimp only
    rcases hread with ⟨hpaused, hevents, hnext⟩ | ⟨hrunning, hcollect⟩
    · rw [hnext, hevents, between_self]
      exact ⟨le_max_left _ _, le_rfl, rfl, fun hrunning => by rw [hpaused] at hrunning; cases hrunning⟩
    · have hkept : ∀ e ∈ s.history, max fromOffset sub.ackedOffset < e.seq →
          (sub.selection fmt s.queries).selects e = true → e ∈ s.log.changes := by
        intro e he hlt _
        by_contra hgone
        rw [(beyondHorizon_iff h.retains _).mpr ⟨e, he, hlt, hgone⟩] at hhorizon
        cases hhorizon
      have hserved := served_of_collect h.retains hkept hcollect
      exact ⟨next_le_of_collect h.retains hcollect, hserved.le, hserved.sent, fun _ => hserved⟩

/-- A drain that collects writes what it collected and moves the sink on, or fails. -/
theorem drain_cases {io : CdcIo} {queries : Queries Q} {log : ChangeLog} {subs : Subscriptions Q}
    {sub : Subscription Q} {limit : ℕ} (hsub : subs.subs id = some sub) :
    (∃ e, cdcSinkDrain fmt io queries log subs id limit = (.error e, subs, [])) ∨
    ∃ events next, cdcCollectEvents fmt queries log sub.target sub.options sub.sinkOffset
        (max limit 1) = .ok (events, next) ∧
      ((∃ e written, events ≠ [] ∧ io.write = some (written, e) ∧
          cdcSinkDrain fmt io queries log subs id limit = (.error e, subs, events.take written)) ∨
        (∃ e, io.persist = some e ∧
          cdcSinkDrain fmt io queries log subs id limit = (.error e, subs, events)) ∨
        cdcSinkDrain fmt io queries log subs id limit =
          (.ok ⟨id, events.length, max sub.sinkOffset next⟩,
            { subs with
              subs := Function.update subs.subs id
                (some { sub with sinkOffset := max sub.sinkOffset next }) }, events)) := by
  rw [cdcSinkDrain, hsub]
  dsimp only
  by_cases hsink : sub.options.sink.isNone = true
  · exact .inl ⟨_, if_pos hsink⟩
  · rw [if_neg hsink]
    rcases hcollect : cdcCollectEvents fmt queries log sub.target sub.options sub.sinkOffset
      (max limit 1) with e | ⟨events, next⟩
    · exact .inl ⟨e, rfl⟩
    · refine .inr ⟨events, next, rfl, ?_⟩
      dsimp only
      rcases hwrite : (if events.isEmpty = true then none else io.write) with _ | ⟨written, e⟩
      · rcases hpersist : io.persist with _ | e
        · exact .inr (.inr rfl)
        · exact .inr (.inl ⟨e, rfl, rfl⟩)
      · refine .inl ⟨e, written, ?_, ?_, rfl⟩
        · rintro rfl
          cases hwrite
        · split at hwrite
          · cases hwrite
          · exact hwrite

theorem advance_self (r : Reader) (history : List ChangeEvent) (selects : ChangeEvent → Bool) :
    r.advance history selects r.cursor [] = r := by
  rw [Reader.advance, between_self]
  simp

/-- What an admissible drain collects is what the sink is due, and writing it does not fail
half-way. -/
theorem Inv.served_of_drain (h : s.Inv) {sub : Subscription Q} {limit next : ℕ} {io : CdcIo}
    {events : List ChangeEvent} (hsub : s.subs.subs id = some sub)
    (hadm : s.Admissible fmt (.drain id limit io))
    (hcollect : cdcCollectEvents fmt s.queries s.log sub.target sub.options sub.sinkOffset
      (max limit 1) = .ok (events, next)) :
    Served s.history (sub.selection fmt s.queries) sub.sinkOffset (max limit 1) events next ∧
      (events ≠ [] → io.persist = none ∧ ∀ failure, io.write = some failure → failure.1 = 0) := by
  have hserved := served_of_collect h.retains
    (fun e he hlt hselects => (hadm sub hsub e he hlt hselects).1) hcollect
  refine ⟨hserved, fun hne => ?_⟩
  obtain ⟨sent, hsent⟩ := List.exists_mem_of_ne_nil events hne
  rw [hserved.sent] at hsent
  obtain ⟨e, he, -⟩ := List.mem_map.mp hsent
  obtain ⟨he, hselects⟩ := List.mem_filter.mp he
  obtain ⟨hmem, hlt, -⟩ := mem_between.mp he
  exact (hadm sub hsub e hmem hlt hselects).2

theorem Inv.drained (h : s.Inv) {sub : Subscription Q} {limit : ℕ} {io : CdcIo}
    (hsub : s.subs.subs id = some sub) (hadm : s.Admissible fmt (.drain id limit io))
    {result : Except String CdcSinkDrainResult} {subs : Subscriptions Q}
    {events : List ChangeEvent}
    (hdrain : cdcSinkDrain fmt io s.queries s.log s.subs id limit = (result, subs, events)) :
    (s.drained fmt id sub subs events).Inv := by
  obtain ⟨hsink, hcursor⟩ := h.sink id sub hsub
  -- A drain that fails has written nothing, and leaves the sink where it is.
  have hfails : subs = s.subs → events = [] → (s.drained fmt id sub subs events).Inv := by
    rintro rfl rfl
    refine h.update (fun k hk => ⟨rfl, rfl, Function.update_of_ne hk _ _⟩) fun sub' hsub' => ?_
    cases hsub.symm.trans hsub'
    rw [Function.update_self, hsub, Option.map_some, Option.getD_some, ← hcursor, advance_self]
    exact ⟨h.consumer id sub hsub, hsink, rfl⟩
  rcases drain_cases hsub with ⟨e, hcase⟩ | ⟨page, next, hcollect, hcase⟩
  · cases hcase.symm.trans hdrain
    exact hfails rfl rfl
  · obtain ⟨hserved, hio⟩ := h.served_of_drain hsub hadm hcollect
    rcases hcase with ⟨e, written, hne, hwrite, hcase⟩ | ⟨e, hpersist, hcase⟩ | hcase
    · cases hcase.symm.trans hdrain
      refine hfails rfl ?_
      have hzero : written = 0 := (hio hne).2 _ hwrite
      rw [hzero, List.take_zero]
    · cases hcase.symm.trans hdrain
      refine hfails rfl ?_
      by_contra hne
      rw [(hio hne).1] at hpersist
      cases hpersist
    · cases hcase.symm.trans hdrain
      refine h.update (fun k hk => ⟨Function.update_of_ne hk _ _, rfl,
        Function.update_of_ne hk _ _⟩) fun sub' hsub' => ?_
      dsimp only at hsub' ⊢
      rw [Function.update_self] at hsub'
      cases hsub'
      have hmax : max sub.sinkOffset next = next := max_eq_right hserved.le
      have hbound := next_le_of_collect h.retains hcollect
      rw [← hcursor] at hserved hbound
      rw [Function.update_self, Function.update_self, Option.map_some, Option.getD_some, hmax]
      exact ⟨h.consumer id sub hsub,
        hsink.advance h.retains.sorted (sent_seq fmt s.queries sub) hserved.le hbound hserved.sent,
        rfl⟩

theorem Inv.polled (h : s.Inv) {sub : Subscription Q} {fromOffset limit : ℕ}
    {answer : CdcPollResult} (hsub : s.subs.subs id = some sub)
    (hpoll : cdcPoll fmt s.queries s.log s.subs id fromOffset limit = .ok answer) :
    (s.polled fmt id sub fromOffset answer).Inv := by
  obtain ⟨hconsumer, hacked⟩ := h.consumer id sub hsub
  refine h.update (fun k hk => ⟨rfl, Function.update_of_ne hk _ _, rfl⟩) fun sub' hsub' => ?_
  cases hsub.symm.trans hsub'
  rw [Function.update_self]
  refine ⟨?_, h.sink id sub hsub⟩
  cases hreads : answer.resnapshotRequired with
  | true =>
    rw [if_pos rfl]
    refine ⟨Reader.sound_begin _ _ _, ?_⟩
    rcases poll_cases hsub hpoll with ⟨hhorizon, -, hnext⟩ | ⟨-, hresnapshot, -⟩
    · rw [beyondHorizon, Bool.and_eq_true, decide_eq_true_eq, decide_eq_true_eq,
        saturatingSucc] at hhorizon
      have hearliest : s.log.currentCdcEarliestOffset ≤ u64Max := by
        rw [h.retains.earliest, u64Max]
        have hfits := h.retains.fits
        have hpos := s.log.retention_pos
        split
        · omega
        · rename_i hne
          have hlength := List.length_pos_iff.mpr hne
          omega
      rw [Reader.begin, hnext]
      dsimp only
      omega
    · rw [hreads] at hresnapshot
      cases hresnapshot
  | false =>
    rw [if_neg (by simp)]
    obtain ⟨hbound, hle, hsent, -⟩ := h.served_of_poll hsub hpoll hreads
    by_cases hcursor : max fromOffset sub.ackedOffset = (s.consumers id).cursor
    · rw [if_pos hcursor]
      rw [hcursor] at hbound hle hsent
      exact ⟨hconsumer.advance h.retains.sorted (sent_seq fmt s.queries sub) hle hbound hsent,
        hacked.trans hle⟩
    · rw [if_neg hcursor]
      exact ⟨hconsumer, hacked⟩

theorem keeps_inv (fmt : Formats) :
    Keeps (Feed.step fmt) (Feed.Admissible (Q := Q) fmt) Feed.Inv := by
  intro s a s' h hadm hstep
  cases a with
  | change now c =>
    cases hstep
    exact h.changed hadm now c
  | redefine queries =>
    cases hstep
    exact ⟨h.retains, h.consumer, h.sink⟩
  | subscribe target options io =>
    obtain ⟨⟨id, subs⟩, hsubs, rfl⟩ := Option.map_eq_some_iff.mp hstep
    rw [Subscriptions.subscribe] at hsubs
    rcases hpersist : io.persist with _ | e
    · rw [hpersist] at hsubs
      cases hsubs
      refine h.update (fun k hk => ⟨Function.update_of_ne hk _ _,
        Function.update_of_ne hk _ _, Function.update_of_ne hk _ _⟩) fun sub hsub => ?_
      dsimp only at hsub ⊢
      rw [Function.update_self] at hsub
      cases hsub
      rw [Function.update_self, Function.update_self]
      exact ⟨⟨Reader.sound_begin _ _ _, le_rfl⟩, Reader.sound_begin _ _ _, rfl⟩
    · rw [hpersist] at hsubs
      cases hsubs
  | poll id fromOffset limit =>
    obtain ⟨sub, hsub, hstep⟩ := Option.bind_eq_some_iff.mp hstep
    obtain ⟨answer, hpoll, hstep⟩ := Option.bind_eq_some_iff.mp hstep
    cases hstep
    exact h.polled hsub (toOption_eq_some hpoll)
  | ack id offset io =>
    obtain ⟨subs, hsubs, rfl⟩ := Option.map_eq_some_iff.mp hstep
    obtain ⟨sub, hsub, hupdate⟩ := modify_ok (toOption_eq_some hsubs)
    refine h.update (fun k hk => ⟨by rw [hupdate, Function.update_of_ne hk],
      Function.update_of_ne hk _ _, rfl⟩) fun sub' hsub' => ?_
    rw [hupdate, Function.update_self] at hsub'
    cases hsub'
    rw [Function.update_self]
    refine ⟨⟨Reader.sound_begin _ _ _, ?_⟩, h.sink id sub hsub⟩
    exact max_le_max_right offset (h.consumer id sub hsub).2
  | setPaused id paused io =>
    obtain ⟨subs, hsubs, rfl⟩ := Option.map_eq_some_iff.mp hstep
    obtain ⟨sub, hsub, hupdate⟩ := modify_ok (toOption_eq_some hsubs)
    refine h.update (fun k hk => ⟨by rw [hupdate, Function.update_of_ne hk],
      rfl, rfl⟩) fun sub' hsub' => ?_
    rw [hupdate, Function.update_self] at hsub'
    cases hsub'
    exact ⟨h.consumer id sub hsub, h.sink id sub hsub⟩
  | close id io =>
    obtain ⟨subs, hsubs, rfl⟩ := Option.map_eq_some_iff.mp hstep
    obtain ⟨sub, hsub, hupdate⟩ := modify_ok (toOption_eq_some hsubs)
    refine h.update (fun k hk => ⟨by rw [hupdate, Function.update_of_ne hk],
      rfl, rfl⟩) fun sub' hsub' => ?_
    rw [hupdate, Function.update_self] at hsub'
    cases hsub'
  | drain id limit io =>
    obtain ⟨sub, hsub, hstep⟩ := Option.bind_eq_some_iff.mp hstep
    cases hstep
    exact h.drained hsub hadm rfl

/-- An engine whose change log is empty, without subscriptions. -/
def fresh (retention : ℕ) (hpos : 0 < retention) (queries : Queries Q) : Feed Q where
  log := { cdcRetentionEvents := retention, retention_pos := hpos }
  queries := queries

theorem fresh_inv (retention : ℕ) (hpos : 0 < retention) (queries : Queries Q) :
    (fresh retention hpos queries).Inv where
  retains := ⟨rfl, rfl, by simp [fresh], List.drop_nil.symm⟩
  consumer _ _ hsub := by cases hsub
  sink _ _ hsub := by cases hsub

end Feed

end Run

end SkeinDB.Changes
