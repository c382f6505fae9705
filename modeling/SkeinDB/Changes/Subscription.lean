import SkeinDB.Changes.Log
import SkeinDB.Tables.Literals
import SkeinDB.Tables.Statements

/-!
# Subscriptions to changes

`skeindb/src/engine.rs`: `cdc_poll` answers a consumer from the change log, `cdc_sink_drain` appends
to the file of a subscription, and both collect the events that the subscription selects.
-/
namespace SkeinDB.Changes
open SkeinDB.Tables SkeinDB.Transition

inductive CdcEventFormat
  | objectsJson
  | plainJson

structure CdcPrimaryKeyRange where
  lowerBound : Option Lit := none
  upperBound : Option Lit := none

inductive CdcSinkConfig
  | file (path : String)

structure CdcSubscriptionOptions where
  format : CdcEventFormat := .objectsJson
  includeBefore : Bool := false
  includeAfter : Bool := false
  pk : List Lit := []
  pkRange : Option CdcPrimaryKeyRange := none
  ops : List String := []
  columns : List String := []
  sink : Option CdcSinkConfig := none

inductive SubscriptionTarget (Q : Type)
  | table (db table : String)
  | query (queryId : String) (query : Q) (args : List Lit)

structure Subscription (Q : Type) where
  ackedOffset : ℕ
  paused : Bool := false
  options : CdcSubscriptionOptions
  target : SubscriptionTarget Q
  sinkOffset : ℕ

structure Subscriptions (Q : Type) where
  nextId : ℕ := 1
  subs : String → Option (Subscription Q) := fun _ => none

/-- What the engine makes of a query in its present state: the tables on which the query depends,
and the etag of its answer. -/
structure Queries (Q : Type) where
  dependencyTables : Q → Except String (List String)
  etag : Q → List Lit → Except String String

section Selection
variable (fmt : Formats) {Q : Type}

def cdcSubscriptionAllowsSourceOp (options : CdcSubscriptionOptions) (op : String) : Bool :=
  options.ops.isEmpty || options.ops.any fun allowed => eqIgnoreAsciiCase allowed op

def cdcSubscriptionMatchesPk (options : CdcSubscriptionOptions) (pk : Option (List Lit)) : Bool :=
  options.pk.isEmpty || pk == some options.pk

def cdcSubscriptionMatchesPkRange (options : CdcSubscriptionOptions) (pk : Option (List Lit)) :
    Bool :=
  match options.pkRange with
  | none => true
  | some range =>
    match pk with
    | some [candidate] =>
      (range.lowerBound.all fun lower => cmpLit fmt candidate lower != .lt) &&
        range.upperBound.all fun upper => cmpLit fmt candidate upper != .gt
    | _ => false

def cdcSubscriptionMatchesColumns (options : CdcSubscriptionOptions)
    (before after : Option RowObject) : Bool :=
  options.columns.isEmpty || options.columns.any fun column =>
    before.bind (· column) != after.bind (· column)

def cdcMatches (options : CdcSubscriptionOptions) (ev : ChangeEvent) : Bool :=
  cdcSubscriptionAllowsSourceOp options ev.op && cdcSubscriptionMatchesPk options ev.pk &&
    cdcSubscriptionMatchesPkRange fmt options ev.pk &&
      cdcSubscriptionMatchesColumns options ev.before ev.after

def cdcProjectRowColumns (columns : List String) (row : RowObject) : RowObject :=
  if columns.isEmpty then row else selectColumns row columns

def projectCdcEventForSubscription (options : CdcSubscriptionOptions) (ev : ChangeEvent) :
    ChangeEvent :=
  { ev with
    before := if options.includeBefore then ev.before.map (cdcProjectRowColumns options.columns)
      else none
    after := if options.includeAfter then ev.after.map (cdcProjectRowColumns options.columns)
      else none }

def invalidation (queryId etag : String) (ev : ChangeEvent) : ChangeEvent :=
  { ev with op := "invalidate", queryId := some queryId, etag := some etag }

/-- Which events are for a target, and what becomes of one of them before it is sent. -/
structure Selection where
  selects : ChangeEvent → Bool
  sent : ChangeEvent → ChangeEvent

def SubscriptionTarget.selection (queries : Queries Q) (options : CdcSubscriptionOptions) :
    SubscriptionTarget Q → Except String Selection
  | .table db name => .ok {
      selects ev := ev.db == db && ev.table == name && cdcMatches fmt options ev
      sent := projectCdcEventForSubscription options }
  | .query queryId q args => do
    let etag ← queries.etag q args
    let depTables ← queries.dependencyTables q
    return {
      selects ev := depTables.contains (ev.db ++ "." ++ ev.table) && cdcMatches fmt options ev
      sent ev := invalidation queryId etag (projectCdcEventForSubscription options ev) }

/-- Both targets are served by one loop over the log. -/
def cdcCollectEvents (queries : Queries Q) (log : ChangeLog) (target : SubscriptionTarget Q)
    (options : CdcSubscriptionOptions) (resumeOffset limit : ℕ) :
    Except String (List ChangeEvent × ℕ) := do
  let selection ← target.selection fmt queries options
  let (events, nextOffset) := readPage (·.seq) selection.selects resumeOffset limit log.changes []
    resumeOffset
  return (events.map selection.sent, nextOffset)

end Selection

section Calls
variable (fmt : Formats) {Q : Type}

structure CdcBackpressureStatus where
  state : String
  lag : ℕ
  remainingUntilResnapshot : ℕ
  paused : Bool
  deriving DecidableEq, Repr

def cdcBackpressureWarnLag (retentionLimit : ℕ) : ℕ := max 1 (retentionLimit / 2)

def cdcBackpressureThrottleLag (retentionLimit : ℕ) : ℕ :=
  max (cdcBackpressureWarnLag retentionLimit) (min (min (retentionLimit * 3) u64Max + 3) u64Max / 4)

/-- The event after the offset is gone from the log. -/
def beyondHorizon (earliestOffset offset : ℕ) : Bool :=
  0 < earliestOffset && saturatingSucc offset < earliestOffset

def cdcBackpressureStatus (log : ChangeLog) (sub : Subscription Q) : CdcBackpressureStatus :=
  let lag := log.changeSeq - sub.ackedOffset
  { state :=
      if beyondHorizon log.currentCdcEarliestOffset sub.ackedOffset then "resnapshot_required"
      else if sub.paused then "paused"
      else if cdcBackpressureThrottleLag log.cdcRetentionEvents ≤ lag then "throttle"
      else if cdcBackpressureWarnLag log.cdcRetentionEvents ≤ lag then "pressure"
      else "healthy"
    lag := lag
    remainingUntilResnapshot := log.cdcRetentionEvents - lag
    paused := sub.paused }

structure CdcPollResult where
  format : CdcEventFormat
  events : List ChangeEvent := []
  nextOffset : ℕ
  earliestOffset : ℕ
  latestOffset : ℕ
  resnapshotRequired : Bool := false
  resnapshotFromOffset : Option ℕ := none
  resnapshotReason : Option String := none
  backpressure : CdcBackpressureStatus

def cdcPoll (queries : Queries Q) (log : ChangeLog) (subs : Subscriptions Q) (subId : String)
    (fromOffset limit : ℕ) : Except String CdcPollResult :=
  match subs.subs subId with
  | none => .error "not_found"
  | some sub =>
    let resumeOffset := max fromOffset sub.ackedOffset
    let earliest := log.currentCdcEarliestOffset
    let answer : CdcPollResult :=
      { format := sub.options.format
        nextOffset := resumeOffset
        earliestOffset := earliest
        latestOffset := log.changeSeq
        backpressure := cdcBackpressureStatus log sub }
    if beyondHorizon earliest resumeOffset then
      .ok { answer with
        nextOffset := earliest - 1
        resnapshotRequired := true
        resnapshotFromOffset := some (earliest - 1)
        resnapshotReason := some "wal_horizon_exceeded" }
    else if sub.paused then .ok answer
    else do
      let (events, nextOffset) ←
        cdcCollectEvents fmt queries log sub.target sub.options resumeOffset limit
      return { answer with events, nextOffset }

/-- What comes of writing to the sink, with how many events are in it when that fails, and of
writing the subscriptions. -/
structure CdcIo where
  write : Option (ℕ × String) := none
  persist : Option String := none

structure CdcSinkDrainResult where
  subId : String
  delivered : ℕ
  sinkOffset : ℕ
  deriving DecidableEq, Repr

/-- What a drain returns, the subscriptions after it, and what it appended to the sink. -/
def cdcSinkDrain (io : CdcIo) (queries : Queries Q) (log : ChangeLog) (subs : Subscriptions Q)
    (subId : String) (limit : ℕ) :
    Except String CdcSinkDrainResult × Subscriptions Q × List ChangeEvent :=
  match subs.subs subId with
  | none => (.error "not_found", subs, [])
  | some sub =>
    if sub.options.sink.isNone then
      (.error "invalid_request: subscription has no sink configured", subs, [])
    else
      match cdcCollectEvents fmt queries log sub.target sub.options sub.sinkOffset (max limit 1) with
      | .error e => (.error e, subs, [])
      | .ok (events, nextOffset) =>
        match if events.isEmpty then none else io.write, io.persist with
        | some (written, e), _ => (.error e, subs, events.take written)
        | none, some e => (.error e, subs, events)
        | none, none =>
          let sinkOffset := max sub.sinkOffset nextOffset
          (.ok { subId, delivered := events.length, sinkOffset },
            { subs with subs := Function.update subs.subs subId (some { sub with sinkOffset }) },
            events)

/-- A change of one subscription, which is lost when the subscriptions cannot be written. -/
def Subscriptions.modify (io : CdcIo) (subs : Subscriptions Q) (subId : String)
    (f : Subscription Q → Option (Subscription Q)) : Except String (Subscriptions Q) :=
  match subs.subs subId, io.persist with
  | none, _ => .error "not_found"
  | some _, some e => .error e
  | some sub, none => .ok { subs with subs := Function.update subs.subs subId (f sub) }

def cdcAck (io : CdcIo) (subs : Subscriptions Q) (subId : String) (offset : ℕ) :
    Except String (Subscriptions Q) :=
  subs.modify io subId fun sub => some { sub with ackedOffset := max sub.ackedOffset offset }

def cdcSetPaused (io : CdcIo) (subs : Subscriptions Q) (subId : String) (paused : Bool) :
    Except String (Subscriptions Q) :=
  subs.modify io subId fun sub => some { sub with paused }

def cdcClose (io : CdcIo) (subs : Subscriptions Q) (subId : String) :
    Except String (Subscriptions Q) :=
  subs.modify io subId fun _ => none

def cdcSubId (n : ℕ) : String := "sub_" ++ String.ofList ((Nat.toDigits 16 n).leftpad 16 '0')

def cdcValidatePkRange (range : CdcPrimaryKeyRange) : Except String Unit :=
  match range.lowerBound, range.upperBound with
  | none, none => .error "invalid_request: cdc pk_range requires at least one bound"
  | some lower, some upper =>
    if cmpLit fmt lower upper = .gt then
      .error "invalid_request: cdc pk_range lower_bound must be <= upper_bound"
    else .ok ()
  | _, _ => .ok ()

/-- What `cdc_subscribe_table_with_options` checks of the schema and the options. -/
def checkTableSubscription (schema : TableSchema) (options : CdcSubscriptionOptions) :
    Except String Unit := do
  if !options.pk.isEmpty then
    if schema.primaryKey.isEmpty then
      throw "invalid_request: cdc pk filter requires a table primary key"
    if options.pk.length ≠ schema.primaryKey.length then
      throw ("invalid_request: cdc pk filter length " ++ toString options.pk.length ++
        " does not match primary key width " ++ toString schema.primaryKey.length)
  if let some range := options.pkRange then
    if schema.primaryKey.isEmpty then
      throw "invalid_request: cdc pk_range filter requires a table primary key"
    if schema.primaryKey.length ≠ 1 then
      throw "invalid_request: cdc pk_range filter requires a single-column primary key"
    cdcValidatePkRange fmt range
  options.columns.forM fun column =>
    if schema.columns.any (·.name == column) then return ()
    else throw ("invalid_request: unknown cdc column filter " ++ column)

/-- A new subscription begins at the end of the log. -/
def Subscriptions.subscribe (io : CdcIo) (log : ChangeLog) (subs : Subscriptions Q)
    (target : SubscriptionTarget Q) (options : CdcSubscriptionOptions) :
    Except String (String × Subscriptions Q) :=
  match io.persist with
  | some e => .error e
  | none =>
    let id := cdcSubId subs.nextId
    .ok (id, {
      nextId := subs.nextId + 1
      subs := Function.update subs.subs id (some
        { ackedOffset := log.changeSeq, options, target, sinkOffset := log.changeSeq }) })

def cdcSubscribeTable (io : CdcIo) (getSchema : TableKey → Except String TableSchema)
    (log : ChangeLog) (subs : Subscriptions Q) (key : TableKey)
    (options : CdcSubscriptionOptions) : Except String (String × Subscriptions Q) := do
  let schema ← getSchema key
  checkTableSubscription fmt schema options
  subs.subscribe io log (.table key.db key.table) options

def cdcSubscribeQuery (io : CdcIo) (prepared : String → Option Q) (queries : Queries Q)
    (log : ChangeLog) (subs : Subscriptions Q) (queryId : String) (args : List Lit)
    (options : CdcSubscriptionOptions) : Except String (String × Subscriptions Q) := do
  if let some range := options.pkRange then cdcValidatePkRange fmt range
  match prepared queryId with
  | none => throw "not_found"
  | some query =>
    let _ ← queries.dependencyTables query
    subs.subscribe io log (.query queryId query args) options

end Calls

end SkeinDB.Changes
