import SkeinDB.Queries.Dates

/-!
# Paths into JSON documents

`skeindb/src/engine.rs`: `mysql_json_path_extract` walks a document along a path and rejects a path
that is not well formed, `mysql_json_path_set` and `mysql_json_path_remove` first read the segments
of the path and skip or end at what they do not understand.
-/
namespace SkeinDB.Queries
open SkeinDB.Tables

section Members

/-- The map of an object is in the order of its keys; the value of a key is replaced in place. -/
def modifyMember (key : String) (f : Json → Json) : List (String × Json) → List (String × Json)
  | [] => []
  | (k, value) :: members =>
    if key == k then (k, f value) :: members else (k, value) :: modifyMember key f members

def insertNew (key : String) (value : Json) : List (String × Json) → List (String × Json)
  | [] => [(key, value)]
  | (k, v) :: members =>
    if key < k then (key, value) :: (k, v) :: members else (k, v) :: insertNew key value members

def insertMember (key : String) (value : Json) (members : List (String × Json)) :
    List (String × Json) :=
  if (members.lookup key).isSome then modifyMember key (fun _ => value) members
  else insertNew key value members

def removeMember (key : String) : List (String × Json) → List (String × Json)
  | [] => []
  | (k, value) :: members =>
    if key == k then members else (k, value) :: removeMember key members

end Members

inductive JsonPathSeg
  | key (key : String)
  | index (idx : ℕ)
  deriving DecidableEq, Repr

section Syntax

/-- `str::parse::<usize>`. -/
def parseUsize : List Char → Option ℕ
  | '+' :: digits => (parseDigits digits).bind fun n => if n < 2 ^ 64 then some n else none
  | digits => (parseDigits digits).bind fun n => if n < 2 ^ 64 then some n else none

/-- The characters of a key, and what follows them. -/
def splitKey (chars : List Char) : List Char × List Char :=
  chars.span fun c => c != '.' && c != '['

/-- The characters of an index, and what follows its closing bracket, which may be missing. -/
def splitIndex (chars : List Char) : List Char × List Char :=
  (chars.takeWhile (· != ']'), (chars.dropWhile (· != ']')).drop 1)

/-- The segments that `mysql_json_path_set` and `mysql_json_path_remove` read: an index that is no
number is skipped, and anything else ends the path. Every turn takes a character, of which the path
has no more than `fuel`. -/
def pathSegments : (fuel : ℕ) → List Char → List JsonPathSeg
  | 0, _ => []
  | _ + 1, [] => []
  | fuel + 1, c :: chars =>
    if c = '.' then
      .key (.ofList (splitKey chars).1) :: pathSegments fuel (splitKey chars).2
    else if c = '[' then
      match parseUsize (splitIndex chars).1 with
      | some idx => .index idx :: pathSegments fuel (splitIndex chars).2
      | none => pathSegments fuel (splitIndex chars).2
    else []

def getKey (key : String) : Json → Option Json
  | .object members => members.lookup key
  | _ => none

def getIndex (idx : ℕ) : Json → Option Json
  | .array items => items[idx]?
  | _ => none

/-- The loop of `mysql_json_path_extract`. -/
def extractLoop : (fuel : ℕ) → List Char → Json → Option Json
  | _, [], current => some current
  | 0, _ :: _, _ => none
  | fuel + 1, c :: chars, current =>
    if c = '.' then
      if (splitKey chars).1 = [] then none
      else (getKey (.ofList (splitKey chars).1) current).bind
        (extractLoop fuel (splitKey chars).2)
    else if c = '[' then
      (parseUsize (splitIndex chars).1).bind fun idx =>
        (getIndex idx current).bind (extractLoop fuel (splitIndex chars).2)
    else none

end Syntax

def mysqlJsonPathExtract (doc : Json) (path : String) : Option Json :=
  match trimChars path.toList with
  | '$' :: rest => extractLoop rest.length rest doc
  | _ => none

section Edits

/-- The walk of `mysql_json_path_remove` to the parent of the last segment, and its removal. -/
def removeAt : List JsonPathSeg → Json → Json
  | [.key key], .object members => .object (removeMember key members)
  | [.index idx], .array items => .array (items.eraseIdx idx)
  | .key key :: segments, .object members => .object (modifyMember key (removeAt segments) members)
  | .index idx :: segments, .array items => .array (items.modify idx (removeAt segments))
  | _, doc => doc

/-- The loop of `mysql_json_path_set`, which makes an object of a missing key. -/
def setAt (value : Json) : List JsonPathSeg → Json → Json
  | [.key key], .object members => .object (insertMember key value members)
  | [.index idx], .array items => .array (items.set idx value)
  | .key key :: segments, .object members =>
    if (members.lookup key).isSome then
      .object (modifyMember key (setAt value segments) members)
    else .object (insertMember key (setAt value segments (.object [])) members)
  | .index idx :: segments, .array items => .array (items.modify idx (setAt value segments))
  | _, doc => doc

end Edits

def mysqlJsonPathRemove (doc : Json) (path : String) : Json :=
  match trimChars path.toList with
  | '$' :: rest => removeAt (pathSegments rest.length rest) doc
  | _ => doc

def mysqlJsonPathSet (doc : Json) (path : String) (value : Json) : Json :=
  match trimChars path.toList with
  | ['$'] => value
  | '$' :: rest => setAt value (pathSegments rest.length rest) doc
  | _ => doc

section Walks

/-- Where the segments lead in a document: to a value, to a key that an object does not have, with
the segments after it, or to a value of another kind or an array that is too short. -/
inductive Walk
  | found (value : Json)
  | missing (segments : List JsonPathSeg)
  | stuck

def walkTo : List JsonPathSeg → Json → Walk
  | [], doc => .found doc
  | .key key :: segments, .object members =>
    match members.lookup key with
    | some child => walkTo segments child
    | none => .missing segments
  | .index idx :: segments, .array items =>
    match items[idx]? with
    | some child => walkTo segments child
    | none => .stuck
  | _, _ => .stuck

def Walk.toOption : Walk → Option Json
  | .found value => some value
  | _ => none

def JsonPathSeg.isKey : JsonPathSeg → Bool
  | .key _ => true
  | .index _ => false

end Walks

section MemberLemmas
variable {key : String} {members : List (String × Json)} {f : Json → Json} {value child : Json}

theorem lookup_modifyMember :
    (modifyMember key f members).lookup key = (members.lookup key).map f := by
  induction members with
  | nil => rfl
  | cons member members ih =>
    obtain ⟨k, v⟩ := member
    rw [modifyMember, List.lookup_cons]
    rcases hk : key == k with _ | _
    · rw [if_neg (by simp), List.lookup_cons, hk]
      exact ih
    · rw [if_pos rfl, List.lookup_cons, hk]
      rfl

theorem lookup_insertNew (h : members.lookup key = none) :
    (insertNew key value members).lookup key = some value := by
  induction members with
  | nil => simp [insertNew]
  | cons member members ih =>
    obtain ⟨k, v⟩ := member
    rw [List.lookup_cons] at h
    rcases hk : key == k with _ | _
    · rw [hk] at h
      rw [insertNew]
      split_ifs
      · simp
      · rw [List.lookup_cons, hk]
        exact ih h
    · rw [hk] at h
      cases h

theorem lookup_insertMember : (insertMember key value members).lookup key = some value := by
  rw [insertMember]
  split_ifs with h
  · rw [lookup_modifyMember]
    obtain ⟨child, hchild⟩ := Option.isSome_iff_exists.mp h
    rw [hchild]
    rfl
  · exact lookup_insertNew (Option.not_isSome_iff_eq_none.mp h)

theorem modifyMember_eq (h : ∀ child, members.lookup key = some child → f child = child) :
    modifyMember key f members = members := by
  induction members with
  | nil => rfl
  | cons member members ih =>
    obtain ⟨k, v⟩ := member
    rw [List.lookup_cons] at h
    rw [modifyMember]
    rcases hk : key == k with _ | _
    · rw [hk] at h
      rw [if_neg (by simp), ih h]
    · rw [hk] at h
      rw [if_pos rfl, h v rfl]

theorem removeMember_ne (h : members.lookup key = some child) :
    removeMember key members ≠ members := by
  have hlength : (removeMember key members).length + 1 = members.length := by
    induction members with
    | nil => cases h
    | cons member members ih =>
      obtain ⟨k, v⟩ := member
      rw [List.lookup_cons] at h
      rw [removeMember]
      rcases hk : key == k with _ | _
      · rw [hk] at h
        rw [if_neg (by simp), List.length_cons, List.length_cons, ih h]
      · rw [if_pos rfl, List.length_cons]
  intro heq
  rw [heq] at hlength
  omega

end MemberLemmas

section Segments

/-- The value under a segment. -/
def JsonPathSeg.get : JsonPathSeg → Json → Option Json
  | .key name, doc => getKey name doc
  | .index idx, doc => getIndex idx doc

/-- An edit of the value under a segment, if there is one. -/
def JsonPathSeg.modify (f : Json → Json) : JsonPathSeg → Json → Json
  | .key name, .object members => .object (modifyMember name f members)
  | .index idx, .array items => .array (items.modify idx f)
  | _, doc => doc

/-- What a set writes in place of the value that some segments start from. -/
def replaceAt (value : Json) : List JsonPathSeg → Json → Json
  | [], _ => value
  | segment :: segments, doc => setAt value (segment :: segments) doc

variable {segment : JsonPathSeg} {segments : List JsonPathSeg} {doc value child : Json}
  {f : Json → Json}

theorem get_modify : segment.get (segment.modify f doc) = (segment.get doc).map f := by
  cases segment with
  | key key =>
    cases doc with
    | object members => exact lookup_modifyMember
    | _ => rfl
  | index idx =>
    cases doc with
    | array items => simp [JsonPathSeg.get, JsonPathSeg.modify, getIndex]
    | _ => rfl

theorem modify_eq (h : ∀ child, segment.get doc = some child → f child = child) :
    segment.modify f doc = doc := by
  cases segment with
  | key key =>
    cases doc with
    | object members => exact congrArg Json.object (modifyMember_eq h)
    | _ => rfl
  | index idx =>
    cases doc with
    | array items =>
      refine congrArg Json.array (List.ext_getElem? fun j => ?_)
      rw [List.getElem?_modify]
      by_cases hj : idx = j
      · subst hj
        rcases hchild : items[idx]? with _ | child
        · rfl
        · simp [h child hchild]
      · simp [hj]
    | _ => rfl

theorem modify_ne (h : segment.get doc = some child) (hf : f child ≠ child) :
    segment.modify f doc ≠ doc := by
  intro heq
  have hget : segment.get (segment.modify f doc) = _ := get_modify
  rw [heq, h] at hget
  exact hf (Option.some.inj hget).symm

/-- Under a segment that has a value the walk goes on there, and an edit is one of that value. -/
theorem walkTo_cons (h : segment.get doc = some child) :
    walkTo (segment :: segments) doc = walkTo segments child := by
  cases segment with
  | key key =>
    cases doc with
    | object members =>
      change members.lookup key = some child at h
      rw [walkTo, h]
    | _ => cases h
  | index idx =>
    cases doc with
    | array items =>
      change items[idx]? = some child at h
      rw [walkTo, h]
    | _ => cases h

theorem setAt_cons (h : segment.get doc = some child) :
    setAt value (segment :: segments) doc = segment.modify (replaceAt value segments) doc := by
  cases segment with
  | key key =>
    cases doc with
    | object members =>
      change members.lookup key = some child at h
      have hsome : (members.lookup key).isSome := by rw [h]; rfl
      rcases segments with _ | ⟨next, segments⟩
      · exact congrArg Json.object (if_pos hsome)
      · exact if_pos hsome
    | _ => cases h
  | index idx =>
    cases doc with
    | array items =>
      rcases segments with _ | ⟨next, segments⟩
      · exact congrArg Json.array (List.set_eq_modify value idx items)
      · rfl
    | _ => cases h

theorem removeAt_cons (hsegments : segments ≠ []) (h : segment.get doc = some child) :
    removeAt (segment :: segments) doc = segment.modify (removeAt segments) doc := by
  obtain ⟨next, segments, rfl⟩ := List.exists_cons_of_ne_nil hsegments
  cases segment with
  | key key =>
    cases doc with
    | object members => rfl
    | _ => cases h
  | index idx =>
    cases doc with
    | array items => rfl
    | _ => cases h

theorem removeAt_last_ne (h : segment.get doc = some child) : removeAt [segment] doc ≠ doc := by
  cases segment with
  | key key =>
    cases doc with
    | object members => exact fun heq => removeMember_ne h (Json.object.inj heq)
    | _ => cases h
  | index idx =>
    cases doc with
    | array items =>
      change items[idx]? = some child at h
      obtain ⟨hidx, -⟩ := List.getElem?_eq_some_iff.mp h
      intro heq
      have hlength := congrArg List.length (Json.array.inj heq)
      rw [List.length_eraseIdx_of_lt hidx] at hlength
      omega
    | _ => cases h

variable (segments value) in
/-- Under a segment that has no value the walk is stuck and nothing is done, or a key is missing. -/
theorem get_none_cases (h : segment.get doc = none) :
    (walkTo (segment :: segments) doc = .stuck ∧ setAt value (segment :: segments) doc = doc ∧
        removeAt (segment :: segments) doc = doc) ∨
      ∃ key members, segment = .key key ∧ doc = .object members ∧ members.lookup key = none := by
  cases segment with
  | key key =>
    cases doc with
    | object members => exact Or.inr ⟨key, members, rfl, rfl, h⟩
    | _ => exact Or.inl (by cases segments <;> exact ⟨rfl, rfl, rfl⟩)
  | index idx =>
    cases doc with
    | array items =>
      change items[idx]? = none at h
      have hlength := List.getElem?_eq_none_iff.mp h
      refine Or.inl ⟨by rw [walkTo, h], ?_⟩
      rcases segments with _ | ⟨next, segments⟩
      · exact ⟨congrArg Json.array (List.set_eq_of_length_le hlength),
          congrArg Json.array (List.eraseIdx_of_length_le hlength)⟩
      · exact ⟨congrArg Json.array (List.modify_eq_self hlength),
          congrArg Json.array (List.modify_eq_self hlength)⟩
    | _ => exact Or.inl (by cases segments <;> exact ⟨rfl, rfl, rfl⟩)

variable (segments value) in
theorem walkTo_missing {key : String} {members : List (String × Json)}
    (h : members.lookup key = none) :
    walkTo (.key key :: segments) (.object members) = .missing segments ∧
      setAt value (.key key :: segments) (.object members) =
        .object (insertMember key (replaceAt value segments (.object [])) members) := by
  refine ⟨by rw [walkTo, h], ?_⟩
  rcases segments with _ | ⟨next, segments⟩
  · rfl
  · exact if_neg (by rw [h]; simp)

end Segments

section Laws
variable {segments rest : List JsonPathSeg} {doc value old : Json}

/-- A walk that is stuck ends before anything is edited. -/
theorem edits_of_stuck (h : walkTo segments doc = .stuck) :
    setAt value segments doc = doc ∧ removeAt segments doc = doc := by
  induction segments generalizing doc with
  | nil => cases h
  | cons segment segments ih =>
    rcases hget : segment.get doc with _ | child
    · rcases get_none_cases segments value hget with ⟨-, hset, hremove⟩ |
        ⟨key, members, rfl, rfl, hkey⟩
      · exact ⟨hset, hremove⟩
      · rw [(walkTo_missing segments value hkey).1] at h
        cases h
    · rw [walkTo_cons hget] at h
      obtain ⟨next, segments, rfl⟩ : ∃ next more, segments = next :: more :=
        List.exists_cons_of_ne_nil fun hnil => by rw [hnil] at h; cases h
      obtain ⟨hset, hremove⟩ := ih h
      rw [setAt_cons hget, removeAt_cons (by simp) hget]
      constructor
      · exact modify_eq fun c hc => by obtain rfl := Option.some.inj (hget.symm.trans hc); exact hset
      · exact modify_eq fun c hc => by
          obtain rfl := Option.some.inj (hget.symm.trans hc); exact hremove

/-- A set replaces the value that its segments lead to. -/
theorem walkTo_replaceAt (h : walkTo segments doc = .found old) :
    walkTo segments (replaceAt value segments doc) = .found value := by
  induction segments generalizing doc with
  | nil => rfl
  | cons segment segments ih =>
    rcases hget : segment.get doc with _ | child
    · rcases get_none_cases segments value hget with ⟨hstuck, -⟩ | ⟨key, members, rfl, rfl, hkey⟩
      · rw [hstuck] at h
        cases h
      · rw [(walkTo_missing segments value hkey).1] at h
        cases h
    · rw [walkTo_cons hget] at h
      have hnext : segment.get (segment.modify (replaceAt value segments) doc) =
          some (replaceAt value segments child) := by rw [get_modify, hget]; rfl
      rw [replaceAt, setAt_cons hget, walkTo_cons hnext]
      exact ih h

theorem removeAt_ne (hsegments : segments ≠ []) (h : walkTo segments doc = .found old) :
    removeAt segments doc ≠ doc := by
  induction segments generalizing doc with
  | nil => exact absurd rfl hsegments
  | cons segment segments ih =>
    rcases hget : segment.get doc with _ | child
    · rcases get_none_cases segments old hget with ⟨hstuck, -⟩ | ⟨key, members, rfl, rfl, hkey⟩
      · rw [hstuck] at h
        cases h
      · rw [(walkTo_missing segments old hkey).1] at h
        cases h
    · rcases segments with _ | ⟨next, segments⟩
      · exact removeAt_last_ne hget
      · rw [walkTo_cons hget] at h
        rw [removeAt_cons (by simp) hget]
        exact modify_ne hget (ih (by simp) h)

/-- Below an object that was made for a missing key only keys can be set. -/
theorem walkTo_replaceAt_empty (segments : List JsonPathSeg) :
    walkTo segments (replaceAt value segments (.object [])) = .found value ↔
      segments.all JsonPathSeg.isKey := by
  induction segments with
  | nil => exact iff_of_true rfl rfl
  | cons segment segments ih =>
    cases segment with
    | key key =>
      have hget : JsonPathSeg.get (.key key) (.object (insertMember key
          (replaceAt value segments (.object [])) [])) =
            some (replaceAt value segments (.object [])) := lookup_insertMember
      rw [replaceAt, (walkTo_missing segments value rfl).2, walkTo_cons hget, ih]
      rfl
    | index idx =>
      have hstuck : walkTo (.index idx :: segments)
          (replaceAt value (.index idx :: segments) (.object [])) = .stuck := by
        cases segments <;> rfl
      rw [hstuck]
      exact iff_of_false (fun h => by cases h) (by simp [JsonPathSeg.isKey])

variable (value) in
/-- Where a key is missing a set always changes the document, and it stores its value if nothing
but keys follows. -/
theorem setAt_missing (h : walkTo segments doc = .missing rest) :
    setAt value segments doc ≠ doc ∧
      (walkTo segments (setAt value segments doc) = .found value ↔ rest.all JsonPathSeg.isKey) := by
  induction segments generalizing doc with
  | nil => cases h
  | cons segment segments ih =>
    rcases hget : segment.get doc with _ | child
    · rcases get_none_cases segments value hget with ⟨hstuck, -⟩ | ⟨key, members, rfl, rfl, hkey⟩
      · rw [hstuck] at h
        cases h
      · obtain ⟨hwalk, hset⟩ := walkTo_missing segments value hkey
        obtain rfl := Walk.missing.inj (hwalk.symm.trans h)
        have hnew : JsonPathSeg.get (.key key) (setAt value (.key key :: segments)
            (.object members)) = some (replaceAt value segments (.object [])) := by
          rw [hset]
          exact lookup_insertMember
        refine ⟨fun heq => ?_, ?_⟩
        · rw [heq] at hnew
          cases hget.symm.trans hnew
        · rw [walkTo_cons hnew]
          exact walkTo_replaceAt_empty segments
    · rw [walkTo_cons hget] at h
      obtain ⟨next, segments, rfl⟩ : ∃ next more, segments = next :: more :=
        List.exists_cons_of_ne_nil fun hnil => by rw [hnil] at h; cases h
      obtain ⟨hne, hfound⟩ := ih h
      have hnext : segment.get (segment.modify (replaceAt value (next :: segments)) doc) =
          some (replaceAt value (next :: segments) child) := by rw [get_modify, hget]; rfl
      rw [setAt_cons hget, walkTo_cons hnext]
      exact ⟨modify_ne hget hne, hfound⟩

end Laws

section WellFormed

/-- The segments of a well-formed path. -/
def strictSegments : (fuel : ℕ) → List Char → Option (List JsonPathSeg)
  | _, [] => some []
  | 0, _ :: _ => none
  | fuel + 1, c :: chars =>
    if c = '.' then
      if (splitKey chars).1 = [] then none
      else (strictSegments fuel (splitKey chars).2).map (.key (.ofList (splitKey chars).1) :: ·)
    else if c = '[' then
      (parseUsize (splitIndex chars).1).bind fun idx =>
        (strictSegments fuel (splitIndex chars).2).map (.index idx :: ·)
    else none

theorem bind_segment (segment : JsonPathSeg) (segments : Option (List JsonPathSeg)) (doc : Json) :
    ((segment.get doc).bind fun child =>
        segments.bind fun segments => (walkTo segments child).toOption) =
      (segments.map (segment :: ·)).bind fun segments => (walkTo segments doc).toOption := by
  rcases segments with _ | segments
  · cases segment.get doc <;> rfl
  · change _ = (walkTo (segment :: segments) doc).toOption
    rcases hget : segment.get doc with _ | child
    · rcases get_none_cases segments doc hget with ⟨hstuck, -⟩ | ⟨key, members, rfl, rfl, hkey⟩
      · rw [hstuck]
        rfl
      · rw [(walkTo_missing segments .null hkey).1]
        rfl
    · rw [walkTo_cons hget]
      rfl

theorem extractLoop_eq (fuel : ℕ) (chars : List Char) (doc : Json) :
    extractLoop fuel chars doc =
      (strictSegments fuel chars).bind fun segments => (walkTo segments doc).toOption := by
  induction fuel generalizing chars doc with
  | zero => cases chars <;> rfl
  | succ fuel ih =>
    cases chars with
    | nil => rfl
    | cons c chars =>
      rw [extractLoop, strictSegments]
      split_ifs with hdot hempty hindex
      · rfl
      · rw [funext (ih (splitKey chars).2)]
        exact bind_segment (.key _) _ doc
      · rcases parseUsize (splitIndex chars).1 with _ | idx
        · rfl
        · rw [Option.bind_some, Option.bind_some, funext (ih (splitIndex chars).2)]
          exact bind_segment (.index idx) _ doc
      · rfl

theorem pathSegments_eq {fuel : ℕ} {chars : List Char} {segments : List JsonPathSeg}
    (h : strictSegments fuel chars = some segments) : pathSegments fuel chars = segments := by
  induction fuel generalizing chars segments with
  | zero =>
    cases chars with
    | nil => exact Option.some.inj h
    | cons c chars => cases h
  | succ fuel ih =>
    cases chars with
    | nil => exact Option.some.inj h
    | cons c chars =>
      rw [strictSegments] at h
      rw [pathSegments]
      split_ifs at h ⊢ with hdot hempty hindex
      · obtain ⟨more, hmore, rfl⟩ := Option.map_eq_some_iff.mp h
        rw [ih hmore]
      · obtain ⟨idx, hidx, h⟩ := Option.bind_eq_some_iff.mp h
        obtain ⟨more, hmore, rfl⟩ := Option.map_eq_some_iff.mp h
        rw [hidx]
        exact congrArg _ (ih hmore)

/-- Segments lead somewhere in some document. -/
theorem exists_walkTo (segments : List JsonPathSeg) :
    ∃ doc value, walkTo segments doc = .found value := by
  induction segments with
  | nil => exact ⟨.null, .null, rfl⟩
  | cons segment segments ih =>
    obtain ⟨doc, value, h⟩ := ih
    cases segment with
    | key key =>
      refine ⟨.object [(key, doc)], value, ?_⟩
      have hget : JsonPathSeg.get (.key key) (.object [(key, doc)]) = some doc := by
        simp [JsonPathSeg.get, getKey]
      rw [walkTo_cons hget, h]
    | index idx =>
      refine ⟨.array (List.replicate (idx + 1) doc), value, ?_⟩
      have hget : JsonPathSeg.get (.index idx) (.array (List.replicate (idx + 1) doc)) = some doc := by
        simp [JsonPathSeg.get, getIndex]
      rw [walkTo_cons hget, h]

theorem strictSegments_ne_nil {fuel : ℕ} {c : Char} {chars : List Char} :
    strictSegments fuel (c :: chars) ≠ some [] := by
  intro h
  rcases fuel with _ | fuel
  · cases h
  rw [strictSegments] at h
  split_ifs at h
  · obtain ⟨_, -, h⟩ := Option.map_eq_some_iff.mp h
    cases h
  · obtain ⟨_, -, h⟩ := Option.bind_eq_some_iff.mp h
    obtain ⟨_, -, h⟩ := Option.map_eq_some_iff.mp h
    cases h

end WellFormed

section Fuel

theorem splitKey_length_le (chars : List Char) : (splitKey chars).2.length ≤ chars.length := by
  rw [splitKey, List.span_eq_takeWhile_dropWhile]
  exact (List.dropWhile_suffix _).length_le

theorem splitIndex_length_le (chars : List Char) : (splitIndex chars).2.length ≤ chars.length := by
  rw [splitIndex, List.length_drop]
  exact (Nat.sub_le _ _).trans (List.dropWhile_suffix _).length_le

/-- A turn for each character is enough. -/
theorem pathSegments_fuel {fuel : ℕ} {chars : List Char} (h : chars.length ≤ fuel) :
    pathSegments (fuel + 1) chars = pathSegments fuel chars := by
  induction fuel generalizing chars with
  | zero =>
    rw [List.eq_nil_of_length_eq_zero (Nat.le_zero.mp h)]
    rfl
  | succ fuel ih =>
    cases chars with
    | nil => rfl
    | cons c chars =>
      have hlength : chars.length ≤ fuel := Nat.le_of_succ_le_succ h
      have hkey := ih ((splitKey_length_le chars).trans hlength)
      have hindex := ih ((splitIndex_length_le chars).trans hlength)
      rw [pathSegments, hkey, hindex]
      rfl

theorem extractLoop_fuel {fuel : ℕ} {chars : List Char} (h : chars.length ≤ fuel) (doc : Json) :
    extractLoop (fuel + 1) chars doc = extractLoop fuel chars doc := by
  induction fuel generalizing chars doc with
  | zero =>
    rw [List.eq_nil_of_length_eq_zero (Nat.le_zero.mp h)]
    rfl
  | succ fuel ih =>
    cases chars with
    | nil => rfl
    | cons c chars =>
      have hlength : chars.length ≤ fuel := Nat.le_of_succ_le_succ h
      have hkey := funext (ih ((splitKey_length_le chars).trans hlength))
      have hindex := funext (ih ((splitIndex_length_le chars).trans hlength))
      rw [extractLoop, hkey, hindex]
      rfl

end Fuel

section Path
variable (doc : Json) (path : String) (value : Json)

/-- What is set where a path leads is read back, a path that no document has changes nothing, and
neither does a set that does not store its value. -/
def PathLaws : Prop :=
  ((mysqlJsonPathExtract doc path).isSome →
      mysqlJsonPathExtract (mysqlJsonPathSet doc path value) path = some value) ∧
    ((∀ d, mysqlJsonPathExtract d path = none) →
      mysqlJsonPathSet doc path value = doc ∧ mysqlJsonPathRemove doc path = doc) ∧
    (mysqlJsonPathExtract (mysqlJsonPathSet doc path value) path ≠ some value →
      mysqlJsonPathSet doc path value = doc)

/-- Along a well-formed path no index follows a key that is missing, and what is read of another
path is nothing or leads to a value of the wrong kind. -/
def PathApplies : Prop :=
  match trimChars path.toList with
  | '$' :: rest =>
    match strictSegments rest.length rest with
    | some segments => ∀ more, walkTo segments doc = .missing more → more.all JsonPathSeg.isKey
    | none =>
      pathSegments rest.length rest = [] ∨ walkTo (pathSegments rest.length rest) doc = .stuck
  | _ => True

variable {path} {rest : List Char}

theorem mysqlJsonPathExtract_eq (htrim : trimChars path.toList = '$' :: rest) :
    mysqlJsonPathExtract doc path = (strictSegments rest.length rest).bind fun segments =>
      (walkTo segments doc).toOption := by
  rw [mysqlJsonPathExtract, htrim]
  exact extractLoop_eq _ _ _

theorem mysqlJsonPathRemove_eq (htrim : trimChars path.toList = '$' :: rest) :
    mysqlJsonPathRemove doc path = removeAt (pathSegments rest.length rest) doc := by
  rw [mysqlJsonPathRemove, htrim]
  rfl

theorem mysqlJsonPathSet_eq (htrim : trimChars path.toList = '$' :: rest) :
    mysqlJsonPathSet doc path value =
      if rest = [] then value else setAt value (pathSegments rest.length rest) doc := by
  rw [mysqlJsonPathSet, htrim]
  cases rest with
  | nil => rfl
  | cons c rest => rfl

/-- A well-formed path writes at its segments. -/
theorem mysqlJsonPathSet_strict {segments : List JsonPathSeg}
    (htrim : trimChars path.toList = '$' :: rest)
    (hstrict : strictSegments rest.length rest = some segments) :
    mysqlJsonPathSet doc path value = replaceAt value segments doc := by
  rw [mysqlJsonPathSet_eq doc value htrim]
  cases rest with
  | nil =>
    obtain rfl := Option.some.inj hstrict
    rfl
  | cons c rest =>
    rw [if_neg (by simp), pathSegments_eq hstrict]
    cases segments with
    | nil => exact absurd hstrict strictSegments_ne_nil
    | cons segment segments => rfl

theorem pathLaws_strict_iff {segments : List JsonPathSeg}
    (htrim : trimChars path.toList = '$' :: rest)
    (hstrict : strictSegments rest.length rest = some segments) :
    PathLaws doc path value ↔
      ∀ more, walkTo segments doc = .missing more → more.all JsonPathSeg.isKey := by
  have hextract : ∀ d, mysqlJsonPathExtract d path = (walkTo segments d).toOption := by
    intro d
    rw [mysqlJsonPathExtract_eq d htrim, hstrict]
    rfl
  have hwell : ¬ ∀ d, mysqlJsonPathExtract d path = none := by
    intro hnone
    obtain ⟨d, found, hfound⟩ := exists_walkTo segments
    have := hnone d
    rw [hextract, hfound] at this
    cases this
  unfold PathLaws
  rw [mysqlJsonPathSet_strict doc value htrim hstrict, hextract, hextract]
  rcases hwalk : walkTo segments doc with old | more | _
  · rw [walkTo_replaceAt hwalk]
    exact iff_of_true ⟨fun _ => rfl, fun h => absurd h hwell, fun h => absurd rfl h⟩
      fun more h => by cases h
  · obtain ⟨segment, segments, rfl⟩ : ∃ segment more, segments = segment :: more :=
      List.exists_cons_of_ne_nil fun hnil => by rw [hnil] at hwalk; cases hwalk
    obtain ⟨hne, hstores⟩ := setAt_missing value hwalk
    have hread : (walkTo (segment :: segments) (setAt value (segment :: segments) doc)).toOption =
        some value ↔ more.all JsonPathSeg.isKey := by
      rw [← hstores]
      rcases walkTo (segment :: segments) _ with found | _ | _ <;> simp [Walk.toOption]
    constructor
    · rintro ⟨-, -, hstore⟩ _ heq
      obtain rfl := Walk.missing.inj heq
      by_contra hkeys
      exact hne (hstore (mt hread.mp hkeys))
    · intro hkeys
      exact ⟨fun h => (by cases h), fun h => absurd h hwell,
        fun h => absurd (hread.mpr (hkeys more rfl)) h⟩
  · obtain ⟨segment, segments, rfl⟩ : ∃ segment more, segments = segment :: more :=
      List.exists_cons_of_ne_nil fun hnil => by rw [hnil] at hwalk; cases hwalk
    exact iff_of_true ⟨fun h => (by cases h), fun h => absurd h hwell,
      fun _ => (edits_of_stuck hwalk).1⟩ fun more h => by cases h

theorem pathLaws_lax_iff (htrim : trimChars path.toList = '$' :: rest)
    (hstrict : strictSegments rest.length rest = none) :
    PathLaws doc path value ↔
      pathSegments rest.length rest = [] ∨
        walkTo (pathSegments rest.length rest) doc = .stuck := by
  have hextract : ∀ d, mysqlJsonPathExtract d path = none := by
    intro d
    rw [mysqlJsonPathExtract_eq d htrim, hstrict]
    rfl
  have hrest : rest ≠ [] := by
    rintro rfl
    cases hstrict
  unfold PathLaws
  rw [hextract, hextract, mysqlJsonPathSet_eq doc value htrim, if_neg hrest,
    mysqlJsonPathRemove_eq doc htrim]
  generalize pathSegments rest.length rest = segments
  have hiff : (setAt value segments doc = doc ∧ removeAt segments doc = doc) ↔
      segments = [] ∨ walkTo segments doc = .stuck := by
    constructor
    · rintro ⟨hset, hremove⟩
      by_contra hneither
      obtain ⟨hne, hstuck⟩ := not_or.mp hneither
      rcases hwalk : walkTo segments doc with old | more | _
      · exact removeAt_ne hne hwalk hremove
      · exact (setAt_missing value hwalk).1 hset
      · exact hstuck hwalk
    · rintro (rfl | hstuck)
      · exact ⟨rfl, rfl⟩
      · exact edits_of_stuck hstuck
  rw [← hiff]
  exact ⟨fun h => h.2.1 fun d => hextract d,
    fun h => ⟨fun hsome => (by cases hsome), fun _ => h, fun _ => h.1⟩⟩

variable (path)

theorem pathLaws_iff : PathLaws doc path value ↔ PathApplies doc path := by
  unfold PathApplies
  split
  case h_1 rest htrim =>
    rcases hstrict : strictSegments rest.length rest with _ | segments
    · exact pathLaws_lax_iff doc value htrim hstrict
    · exact pathLaws_strict_iff doc value htrim hstrict
  case h_2 hroot =>
    have hextract : mysqlJsonPathExtract (mysqlJsonPathSet doc path value) path = none := by
      rw [mysqlJsonPathExtract]
      split
      · exact absurd ‹_› (hroot _)
      · rfl
    have hset : mysqlJsonPathSet doc path value = doc := by
      rw [mysqlJsonPathSet]
      split
      · exact absurd ‹_› (hroot _)
      · exact absurd ‹_› (hroot _)
      · rfl
    have hremove : mysqlJsonPathRemove doc path = doc := by
      rw [mysqlJsonPathRemove]
      split
      · exact absurd ‹_› (hroot _)
      · rfl
    rw [hset] at hextract
    refine iff_of_true ⟨fun h => ?_, fun _ => ⟨hset, hremove⟩, fun _ => hset⟩ trivial
    rw [hextract] at h
    cases h

/-- The objects for the missing keys stay behind when the index after them cannot be set. -/
theorem index_below_missing_keys :
    ¬ PathLaws (.object []) "$.a.b[0]" (.bool true) := by
  intro h
  have hset : mysqlJsonPathSet (.object []) "$.a.b[0]" (.bool true) =
      .object [("a", .object [("b", .object [])])] := rfl
  have hextract : mysqlJsonPathExtract (.object [("a", .object [("b", .object [])])])
      "$.a.b[0]" = none := rfl
  have hunchanged := h.2.2 (by rw [hset, hextract]; simp)
  rw [hset] at hunchanged
  cases hunchanged

end Path

end SkeinDB.Queries
