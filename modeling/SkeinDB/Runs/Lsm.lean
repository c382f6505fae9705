import SkeinDB.Runs.File
import Mathlib.Data.List.Sort
import Mathlib.Data.Nat.Digits.Lemmas

/-!
# A memtable over level-0 runs

`skeindb-core/src/run.rs`: `SimpleLsm` collects puts in a memtable, flushes it to numbered
run files and looks a key up in the memtable and then in the runs, newest first. Opening a
directory finds the runs by their file names, in whatever order they are listed.
-/
namespace SkeinDB.Runs
open SkeinDB.Codec SkeinDB.Format SkeinDB.Search

/-- A file name. -/
abbrev Name := List Char

structure DirEntry where
  name : Name
  isFile : Bool
  contents : Bytes
  deriving DecidableEq, Repr

section Names

/-- The stem and the extension of a file name: the parts around its last dot, unless nothing
stands in front of that dot. -/
def splitExtension (name : Name) : Name × Option Name :=
  let after := (name.reverse.takeWhile (· ≠ '.')).reverse
  match name.reverse.dropWhile (· ≠ '.') with
  | [] => (name, none)
  | [_] => (name, none)
  | _ :: before => (before.reverse, some after)

/-- `str::parse::<u32>`. -/
def parseU32 (s : List Char) : Option ℕ :=
  let digits := if s.head? = some '+' then s.tail else s
  if digits = [] ∨ ¬ digits.all Char.isDigit then none
  else
    let value := digits.foldl (fun acc c => 10 * acc + (c.toNat - '0'.toNat)) 0
    if value < 2 ^ 32 then some value else none

def runPrefix : Name := ['r', 'u', 'n', '-']

def runExtension : Name := ['r', 'u', 'n']

def parseRunId (name : Name) : Except RunError ℕ :=
  let stem := (splitExtension name).1
  if stem.take 4 ≠ runPrefix then .error .invalidRunFileName
  else match parseU32 (stem.drop 4) with
    | none => .error .invalidRunFileName
    | some id => .ok id

/-- The decimal digits of a number, padded with zeros to six. -/
def padded (id : ℕ) : List Char :=
  let digits := (Nat.digits 10 id).reverse.map Nat.digitChar
  List.replicate (6 - digits.length) '0' ++ digits

/-- `run-{run_id:06}.run` -/
def runFileName (id : ℕ) : Name := runPrefix ++ padded id ++ '.' :: runExtension

end Names

section Directory

/-- `fs::read` of a file of the directory. -/
def readFile (dir : List DirEntry) (name : Name) : Except RunError Bytes :=
  match dir.find? fun e => e.isFile ∧ e.name = name with
  | none => .error (.io .notFound)
  | some e => .ok e.contents

/-- Create a file, or replace its contents. -/
def writeFile (dir : List DirEntry) (name : Name) (contents : Bytes) : List DirEntry :=
  dir.filter (·.name ≠ name) ++ [⟨name, true, contents⟩]

/-- A regular file with the extension of runs. -/
def DirEntry.isRun (e : DirEntry) : Bool :=
  e.isFile && (splitExtension e.name).2 == some runExtension

/-- The loop over a directory listing. -/
def discover : List DirEntry → Except RunError (List (ℕ × Name))
  | [] => .ok []
  | e :: rest =>
    if e.isRun then do
      let runId ← parseRunId e.name
      let more ← discover rest
      .ok ((runId, e.name) :: more)
    else discover rest

end Directory

structure SimpleLsmConfig where
  targetBlockSize : ℕ
  memtableMaxEntries : ℕ

/-- The tree together with the directory it works in. -/
structure SimpleLsm where
  dir : List DirEntry
  config : SimpleLsmConfig
  memtable : Std.TreeMap Bytes Bytes
  level0Runs : List Name
  nextRunId : ℕ

namespace SimpleLsm

/-- The run ids are `u32`; the one behind the largest wraps around. -/
def «open» (listing : List DirEntry) (config : SimpleLsmConfig) : Except RunError SimpleLsm := do
  let discovered ← discover listing
  let discovered := discovered.insertionSort fun a b => a.1 ≤ b.1
  .ok
    { dir := listing
      config := config
      memtable := ∅
      level0Runs := discovered.map (·.2)
      nextRunId := (discovered.getLast?).elim 1 fun last => (last.1 + 1) % 2 ^ 32 }

/-- The entries of the memtable in the order of their keys. -/
def memtableEntries (lsm : SimpleLsm) : List RunEntry :=
  lsm.memtable.toList.map fun p => ⟨p.1, p.2⟩

/-- When writing the run fails, its file is left with some `torn` contents and the memtable
stays as it is. -/
def flushMemtable (lsm : SimpleLsm) (createdUnixS : UInt64) (torn : Bytes) :
    Except RunError (Option Name) × SimpleLsm :=
  if lsm.memtable.isEmpty then (.ok none, lsm)
  else
    let path := runFileName lsm.nextRunId
    match writeRun lsm.config.targetBlockSize createdUnixS lsm.memtableEntries with
    | .error e => (.error e, { lsm with dir := writeFile lsm.dir path torn })
    | .ok (_, file) => (.ok (some path),
        { lsm with
          dir := writeFile lsm.dir path file
          memtable := ∅
          level0Runs := lsm.level0Runs ++ [path]
          nextRunId := min (lsm.nextRunId + 1) (2 ^ 32 - 1) })

def put (lsm : SimpleLsm) (key value : Bytes) (createdUnixS : UInt64) (torn : Bytes) :
    Except RunError (Option Name) × SimpleLsm :=
  let lsm := { lsm with memtable := lsm.memtable.insert key value }
  if 0 < lsm.config.memtableMaxEntries ∧ lsm.config.memtableMaxEntries ≤ lsm.memtable.size then
    lsm.flushMemtable createdUnixS torn
  else (.ok none, lsm)

/-- The loop of `get` over the remaining runs. -/
def getFromRuns (dir : List DirEntry) (key : Bytes) : List Name → Except RunError (Option Bytes)
  | [] => .ok none
  | path :: rest => do
    let file ← readFile dir path
    let reader ← RunReader.open file
    match ← reader.get key with
    | some value => .ok (some value)
    | none => getFromRuns dir key rest

def get (lsm : SimpleLsm) (key : Bytes) : Except RunError (Option Bytes) :=
  match lsm.memtable[key]? with
  | some value => .ok (some value)
  | none => getFromRuns lsm.dir key lsm.level0Runs.reverse

end SimpleLsm

section Names

theorem padded_isDigit {id : ℕ} {c : Char} (hc : c ∈ padded id) : c.isDigit := by
  rcases List.mem_append.mp hc with hc | hc
  · rw [List.eq_of_mem_replicate hc]
    decide
  · obtain ⟨d, hd, rfl⟩ := List.mem_map.mp hc
    have hlt : d < 10 := Nat.digits_lt_base (by norm_num) (List.mem_reverse.mp hd)
    interval_cases d <;> decide

theorem padded_ne_nil (id : ℕ) : padded id ≠ [] := by
  rw [← List.length_pos_iff_ne_nil, padded, List.length_append, List.length_replicate]
  omega

theorem foldl_digits {ds : List ℕ} (hds : ∀ d ∈ ds, d < 10) :
    (ds.reverse.map Nat.digitChar).foldl (fun acc c => 10 * acc + (c.toNat - '0'.toNat)) 0 =
      Nat.ofDigits 10 ds := by
  induction ds with
  | nil => rfl
  | cons d ds ih =>
    have hd : (Nat.digitChar d).toNat - '0'.toNat = d := by
      have hzero : '0'.toNat = 48 := rfl
      rw [Nat.toNat_digitChar_of_lt_ten (hds d (by simp)), hzero]
      omega
    rw [List.reverse_cons, List.map_append, List.foldl_append, ih fun x hx => hds x (by simp [hx]),
      Nat.ofDigits_cons, List.map_cons, List.map_nil, List.foldl_cons, List.foldl_nil, hd]
    ring

theorem foldl_zeros (n : ℕ) :
    (List.replicate n '0').foldl (fun acc c => 10 * acc + (c.toNat - '0'.toNat)) 0 = 0 := by
  induction n with
  | zero => rfl
  | succ n ih => simpa [List.replicate_succ] using ih

theorem parseU32_padded {id : ℕ} (h : id < 2 ^ 32) : parseU32 (padded id) = some id := by
  have hplus : (padded id).head? ≠ some '+' := by
    intro hhead
    have := padded_isDigit (List.mem_of_mem_head? hhead)
    revert this
    decide
  have hgood : ¬ (padded id = [] ∨ ¬ (padded id).all Char.isDigit) := by
    rintro (hnil | hbad)
    · exact padded_ne_nil id hnil
    · exact hbad (List.all_eq_true.mpr fun c => padded_isDigit)
  have hvalue : (padded id).foldl (fun acc c => 10 * acc + (c.toNat - '0'.toNat)) 0 = id := by
    rw [padded, List.foldl_append, foldl_zeros,
      foldl_digits fun d hd => Nat.digits_lt_base (by norm_num) hd, Nat.ofDigits_digits]
  simp only [parseU32, if_neg hplus, if_neg hgood, hvalue, if_pos h]

theorem splitExtension_runFileName (id : ℕ) :
    splitExtension (runFileName id) = (runPrefix ++ padded id, some runExtension) := by
  have hreverse : (runFileName id).reverse = 'n' :: 'u' :: 'r' :: '.' ::
      (runPrefix ++ padded id).reverse := by
    simp [runFileName, runExtension]
  obtain ⟨c, rest, hrest⟩ : ∃ c rest, (runPrefix ++ padded id).reverse = c :: rest :=
    List.exists_cons_of_ne_nil (by simp [runPrefix])
  simp only [splitExtension, hreverse, hrest]
  have hback : (c :: rest).reverse = runPrefix ++ padded id := by rw [← hrest, List.reverse_reverse]
  simp only [List.takeWhile_cons, List.dropWhile_cons]
  simp [hback, runExtension]

theorem parseRunId_runFileName {id : ℕ} (h : id < 2 ^ 32) :
    parseRunId (runFileName id) = .ok id := by
  simp only [parseRunId, splitExtension_runFileName]
  have hlen : runPrefix.length = 4 := rfl
  rw [List.take_left' hlen, List.drop_left' hlen, parseU32_padded h]
  simp

theorem runFileName_inj {a b : ℕ} (ha : a < 2 ^ 32) (hb : b < 2 ^ 32)
    (h : runFileName a = runFileName b) : a = b := by
  have hparse := parseRunId_runFileName ha
  rw [h, parseRunId_runFileName hb] at hparse
  exact (Except.ok.inj hparse).symm

end Names

section Directory
variable {dir listing : List DirEntry} {name : Name}

theorem readFile_eq_ok {contents : Bytes} (hnames : (dir.map (·.name)).Nodup) {e : DirEntry}
    (he : e ∈ dir) (hfile : e.isFile) (hcontents : e.contents = contents) :
    readFile dir e.name = .ok contents := by
  cases hfind : dir.find? fun x => x.isFile ∧ x.name = e.name with
  | none =>
    rw [List.find?_eq_none] at hfind
    exact absurd hfile (by simpa using hfind e he)
  | some x =>
    have hx : x.isFile ∧ x.name = e.name := by simpa using List.find?_some hfind
    have hsame : x = e :=
      List.inj_on_of_nodup_map hnames (List.mem_of_find?_eq_some hfind) he hx.2
    simp only [readFile, hfind, hsame, hcontents]

theorem mem_writeFile {contents : Bytes} {e : DirEntry} :
    e ∈ writeFile dir name contents ↔
      (e ∈ dir ∧ e.name ≠ name) ∨ e = ⟨name, true, contents⟩ := by
  simp [writeFile]

theorem writeFile_names (contents : Bytes) (hnames : (dir.map (·.name)).Nodup) :
    ((writeFile dir name contents).map (·.name)).Nodup := by
  rw [writeFile, List.map_append, List.nodup_append]
  refine ⟨hnames.sublist (List.filter_sublist.map _), List.nodup_singleton _, ?_⟩
  intro a ha b hb hab
  obtain ⟨e, he, rfl⟩ := List.mem_map.mp ha
  have hb' : b = name := by simpa using hb
  have hne : e.name ≠ name := by simpa using (List.mem_filter.mp he).2
  exact hne (hab.trans hb')

/-- Every run file of a listing is found, under its number. -/
theorem discover_ok (h : ∀ e ∈ listing, e.isRun → ∃ id < 2 ^ 32, e.name = runFileName id) :
    ∃ found, discover listing = .ok found ∧
      found.map (·.2) = (listing.filter DirEntry.isRun).map (·.name) ∧
      ∀ p ∈ found, p.1 < 2 ^ 32 ∧ p.2 = runFileName p.1 := by
  induction listing with
  | nil => exact ⟨[], rfl, rfl, by simp⟩
  | cons e rest ih =>
    obtain ⟨found, hok, hnames, hids⟩ := ih fun x hx => h x (by simp [hx])
    by_cases hrun : e.isRun
    · obtain ⟨id, hid, hname⟩ := h e (by simp) hrun
      refine ⟨(id, e.name) :: found, ?_, ?_, ?_⟩
      · simp only [discover, if_pos hrun, hname, parseRunId_runFileName hid, hok, bind, Except.bind]
      · simp [hrun, hnames]
      · intro p hp
        rcases List.mem_cons.mp hp with rfl | hp
        · exact ⟨hid, hname⟩
        · exact hids p hp
    · exact ⟨found, by simp [discover, hrun, hok], by simp [hrun, hnames], hids⟩

end Directory

/-- Whether an operation has written a run. -/
def flushed : Except RunError (Option Name) → ℕ
  | .ok (some _) => 1
  | _ => 0

/-- The trees that puts, flushes and reopening after a flush can produce in a directory that held
no runs, with the puts so far and the number of runs written. Opening lists the directory in
any order. -/
inductive Reachable : SimpleLsm → List (Bytes × Bytes) → ℕ → Prop
  | create {listing : List DirEntry} {config : SimpleLsmConfig} {lsm : SimpleLsm}
      (hnames : (listing.map (·.name)).Nodup)
      (hnew : ∀ e ∈ listing, (splitExtension e.name).2 ≠ some runExtension)
      (h : SimpleLsm.open listing config = .ok lsm) : Reachable lsm [] 0
  | put {lsm : SimpleLsm} {puts : List (Bytes × Bytes)} {flushes : ℕ} (key value : Bytes)
      (createdUnixS : UInt64) (torn : Bytes) (hlsm : Reachable lsm puts flushes) :
      Reachable (lsm.put key value createdUnixS torn).2 (puts ++ [(key, value)])
        (flushes + flushed (lsm.put key value createdUnixS torn).1)
  | flush {lsm : SimpleLsm} {puts : List (Bytes × Bytes)} {flushes : ℕ}
      (createdUnixS : UInt64) (torn : Bytes) (hlsm : Reachable lsm puts flushes) :
      Reachable (lsm.flushMemtable createdUnixS torn).2 puts
        (flushes + flushed (lsm.flushMemtable createdUnixS torn).1)
  | reopen {lsm lsm' : SimpleLsm} {puts : List (Bytes × Bytes)} {flushes : ℕ}
      {listing : List DirEntry} {config : SimpleLsmConfig} (hlsm : Reachable lsm puts flushes)
      (hflushed : lsm.memtable.isEmpty) (hlisting : listing.Perm lsm.dir)
      (h : SimpleLsm.open listing config = .ok lsm') : Reachable lsm' puts flushes

/-- The map that the puts describe: the last one of a key wins. -/
def lastWriter (puts : List (Bytes × Bytes)) : Bytes → Option Bytes :=
  puts.foldl (fun m p => Function.update m p.1 (some p.2)) fun _ => none

section Invariant
variable {lsm : SimpleLsm} {runs : List (List RunEntry)} {puts : List (Bytes × Bytes)}

def lookup (key : Bytes) (entries : List RunEntry) : Option Bytes :=
  (entries.find? fun e => e.key = key).map (·.value)

/-- The runs, oldest first, that a tree has written. A file of the next run may be there, left by
a flush that failed. -/
structure Inv (lsm : SimpleLsm) (runs : List (List RunEntry)) (puts : List (Bytes × Bytes)) :
    Prop where
  names : (lsm.dir.map (·.name)).Nodup
  level0 : lsm.level0Runs = (List.range' 1 runs.length).map runFileName
  next : lsm.nextRunId = runs.length + 1
  listed : ∀ e ∈ lsm.dir, e.isRun → ∃ id, e.name = runFileName id ∧ 1 ≤ id ∧
    (id ≤ runs.length ∨ id = runs.length + 1 ∧ lsm.memtable.isEmpty = false)
  stored : ∀ i es, runs[i]? = some es → ∃ e ∈ lsm.dir, e.isFile ∧ e.name = runFileName (i + 1) ∧
    Holds e.contents es
  reads : ∀ key, lastWriter puts key =
    (lsm.memtable[key]?).or (runs.reverse.findSome? (lookup key))

theorem lastWriter_append (puts : List (Bytes × Bytes)) (key value : Bytes) :
    lastWriter (puts ++ [(key, value)]) =
      Function.update (lastWriter puts) key (some value) := by
  rw [lastWriter, List.foldl_append]
  rfl

theorem lookup_memtableEntries (lsm : SimpleLsm) (key : Bytes) :
    lookup key lsm.memtableEntries = lsm.memtable[key]? := by
  rw [lookup, SimpleLsm.memtableEntries, List.find?_map, Option.map_map]
  exact toList_find lsm.memtable key

theorem sorted_memtableEntries (lsm : SimpleLsm) : Sorted RunEntry.key lsm.memtableEntries := by
  rw [Sorted, SimpleLsm.memtableEntries, List.pairwise_map]
  exact Std.TreeMap.ordered_keys_toList

/-- Insert into the memtable. -/
theorem Inv.insert (h : Inv lsm runs puts) (key value : Bytes) :
    Inv { lsm with memtable := lsm.memtable.insert key value } runs (puts ++ [(key, value)]) := by
  refine ⟨h.names, h.level0, h.next, ?_, h.stored, ?_⟩
  · intro e he hrun
    obtain ⟨id, hname, hpos, hid⟩ := h.listed e he hrun
    refine ⟨id, hname, hpos, ?_⟩
    rcases hid with hid | ⟨hid, -⟩
    · exact Or.inl hid
    · exact Or.inr ⟨hid, by simp⟩
  · intro k
    rw [lastWriter_append, Function.update_apply, Std.TreeMap.getElem?_insert, h.reads k]
    by_cases hk : k = key
    · subst hk
      simp
    · have hcmp : compare key k ≠ .eq := fun heq => hk (Std.LawfulEqOrd.eq_of_compare heq).symm
      rw [if_neg hk, if_neg hcmp]

theorem flushMemtable_empty (hempty : lsm.memtable.isEmpty) (createdUnixS : UInt64)
    (torn : Bytes) : lsm.flushMemtable createdUnixS torn = (.ok none, lsm) := by
  rw [SimpleLsm.flushMemtable, if_pos hempty]

/-- A failed flush leaves a file behind that no run list names. -/
theorem Inv.torn (h : Inv lsm runs puts) (hmem : lsm.memtable.isEmpty = false)
    (hsmall : runs.length + 1 < 2 ^ 32) (torn : Bytes) :
    Inv { lsm with dir := writeFile lsm.dir (runFileName lsm.nextRunId) torn } runs puts := by
  refine ⟨writeFile_names torn h.names, h.level0, h.next, ?_, ?_, h.reads⟩
  · intro e he hrun
    rcases mem_writeFile.mp he with ⟨he, -⟩ | rfl
    · exact h.listed e he hrun
    · exact ⟨runs.length + 1, by rw [← h.next], by omega, Or.inr ⟨rfl, hmem⟩⟩
  · intro i es hes
    obtain ⟨e, he, hfile, hname, hholds⟩ := h.stored i es hes
    have hi : i < runs.length := (List.getElem?_eq_some_iff.mp hes).1
    refine ⟨e, mem_writeFile.mpr (Or.inl ⟨he, ?_⟩), hfile, hname, hholds⟩
    rw [hname, h.next]
    intro hsame
    have := runFileName_inj (by omega) (by omega) hsame
    omega

/-- A flush turns the memtable into the newest run. -/
theorem Inv.flushOk (h : Inv lsm runs puts) {file : Bytes} (hsmall : runs.length + 2 < 2 ^ 32)
    (hfile : Holds file lsm.memtableEntries) :
    Inv { lsm with
      dir := writeFile lsm.dir (runFileName lsm.nextRunId) file
      memtable := ∅
      level0Runs := lsm.level0Runs ++ [runFileName lsm.nextRunId]
      nextRunId := min (lsm.nextRunId + 1) (2 ^ 32 - 1) }
      (runs ++ [lsm.memtableEntries]) puts := by
  refine ⟨writeFile_names file h.names, ?_, ?_, ?_, ?_, ?_⟩
  · have hlast : 1 + 1 * runs.length = runs.length + 1 := by omega
    rw [List.length_append, List.length_singleton, List.range'_concat, List.map_append,
      List.map_singleton, hlast, ← h.level0, ← h.next]
  · rw [List.length_append, List.length_singleton, ← h.next, Nat.min_eq_left]
    rw [h.next]
    omega
  · intro e he hrun
    rcases mem_writeFile.mp he with ⟨he, hother⟩ | rfl
    · obtain ⟨id, hname, hpos, hid⟩ := h.listed e he hrun
      refine ⟨id, hname, hpos, Or.inl ?_⟩
      rw [List.length_append, List.length_singleton]
      omega
    · refine ⟨runs.length + 1, by rw [← h.next], by omega, Or.inl ?_⟩
      simp
  · intro i es hes
    rcases Nat.lt_or_ge i runs.length with hi | hi
    · rw [List.getElem?_append_left hi] at hes
      obtain ⟨e, he, hisFile, hname, hholds⟩ := h.stored i es hes
      refine ⟨e, mem_writeFile.mpr (Or.inl ⟨he, ?_⟩), hisFile, hname, hholds⟩
      rw [hname, h.next]
      intro hsame
      have := runFileName_inj (by omega) (by omega) hsame
      omega
    · rw [List.getElem?_append_right hi] at hes
      obtain ⟨hidx, rfl⟩ : i = runs.length ∧ lsm.memtableEntries = es := by
        cases hsub : i - runs.length with
        | zero => exact ⟨by omega, by simpa [hsub] using hes⟩
        | succ n => simp [hsub] at hes
      exact ⟨_, mem_writeFile.mpr (Or.inr rfl), rfl, by rw [h.next, hidx], hfile⟩
  · intro key
    rw [h.reads key, List.reverse_append, List.reverse_singleton, List.singleton_append,
      List.findSome?_cons, lookup_memtableEntries]
    cases lsm.memtable[key]? <;> simp

theorem Inv.flushMemtable (h : Inv lsm runs puts) (createdUnixS : UInt64) (torn : Bytes)
    (hsmall : runs.length + flushed (lsm.flushMemtable createdUnixS torn).1 < 2 ^ 32 - 1) :
    ∃ runs', Inv (lsm.flushMemtable createdUnixS torn).2 runs' puts ∧
      runs'.length = runs.length + flushed (lsm.flushMemtable createdUnixS torn).1 := by
  cases hempty : lsm.memtable.isEmpty with
  | true =>
    rw [flushMemtable_empty hempty]
    exact ⟨runs, h, rfl⟩
  | false =>
    have hsome : ¬ lsm.memtable.isEmpty := by simp [hempty]
    rcases writeRun_blocked lsm.config.targetBlockSize createdUnixS (sorted_memtableEntries lsm)
      with hfull | ⟨info, createdUnixS', blocks, hok, hblocked⟩
    · simp only [SimpleLsm.flushMemtable, if_neg hsome, hfull, flushed] at hsmall ⊢
      exact ⟨runs, h.torn hempty (by omega) torn, rfl⟩
    · simp only [SimpleLsm.flushMemtable, if_neg hsome, hok, flushed] at hsmall ⊢
      exact ⟨_, h.flushOk (by omega) hblocked.holds, by simp⟩

theorem Inv.put (h : Inv lsm runs puts) (key value : Bytes) (createdUnixS : UInt64) (torn : Bytes)
    (hsmall : runs.length + flushed (lsm.put key value createdUnixS torn).1 < 2 ^ 32 - 1) :
    ∃ runs', Inv (lsm.put key value createdUnixS torn).2 runs' (puts ++ [(key, value)]) ∧
      runs'.length = runs.length + flushed (lsm.put key value createdUnixS torn).1 := by
  have hinsert := h.insert key value
  unfold SimpleLsm.put at hsmall ⊢
  dsimp only at hsmall ⊢
  split
  · rename_i hlimit
    rw [if_pos hlimit] at hsmall
    exact hinsert.flushMemtable createdUnixS torn hsmall
  · exact ⟨runs, hinsert, rfl⟩

/-- The sorted finds are the runs in the order they were written. -/
theorem Inv.discovered (h : Inv lsm runs puts) (hempty : lsm.memtable.isEmpty)
    (hsmall : runs.length + 1 < 2 ^ 32) {listing : List DirEntry}
    (hlisting : listing.Perm lsm.dir) :
    ∃ found, discover listing = .ok found ∧ (found.insertionSort fun a b => a.1 ≤ b.1) =
      (List.range' 1 runs.length).map fun id => (id, runFileName id) := by
  have hlisted : ∀ e ∈ listing, e.isRun → ∃ id, e.name = runFileName id ∧ 1 ≤ id ∧
      id ≤ runs.length := by
    intro e he hrun
    obtain ⟨id, hname, hpos, hid⟩ := h.listed e (hlisting.mem_iff.mp he) hrun
    refine ⟨id, hname, hpos, ?_⟩
    simpa [hempty] using hid
  have hparse : ∀ e ∈ listing, e.isRun → ∃ id < 2 ^ 32, e.name = runFileName id := by
    intro e he hrun
    obtain ⟨id, hname, -, hid⟩ := hlisted e he hrun
    exact ⟨id, by omega, hname⟩
  obtain ⟨found, hok, hnames, hids⟩ := discover_ok hparse
  refine ⟨found, hok, ?_⟩
  have hnodup : found.Nodup := by
    apply List.Nodup.of_map (·.2)
    rw [hnames]
    have hall : (listing.map (·.name)).Nodup := (hlisting.map _).nodup_iff.mpr h.names
    exact hall.sublist (List.filter_sublist.map _)
  have hfound : ∀ name, name ∈ found.map (·.2) ↔ ∃ e ∈ listing, e.isRun ∧ e.name = name := by
    intro name
    rw [hnames]
    simp [and_assoc]
  have hmem : ∀ p, p ∈ found ↔
      p ∈ (List.range' 1 runs.length).map fun id => (id, runFileName id) := by
    intro p
    constructor
    · intro hp
      obtain ⟨hsmallId, hname⟩ := hids p hp
      obtain ⟨e, he, hrun, hep⟩ := (hfound p.2).mp (List.mem_map.mpr ⟨p, hp, rfl⟩)
      obtain ⟨id, hid, hpos, hle⟩ := hlisted e he hrun
      obtain rfl : p.1 = id := runFileName_inj hsmallId (by omega) (by rw [← hname, ← hep, hid])
      refine List.mem_map.mpr ⟨p.1, ?_, by rw [← hname]⟩
      rw [List.mem_range'_1]
      omega
    · intro hp
      obtain ⟨id, hid, rfl⟩ := List.mem_map.mp hp
      rw [List.mem_range'_1] at hid
      obtain ⟨e, he, hfile, hname, -⟩ :=
        h.stored (id - 1) _ (List.getElem?_eq_getElem (by omega))
      rw [Nat.sub_add_cancel hid.1] at hname
      have hrun : e.isRun := by
        rw [DirEntry.isRun, hfile, hname, splitExtension_runFileName]
        simp
      obtain ⟨q, hq, hqname⟩ := List.mem_map.mp
        ((hfound e.name).mpr ⟨e, hlisting.mem_iff.mpr he, hrun, rfl⟩)
      obtain ⟨hsmallId, hqid⟩ := hids q hq
      obtain rfl : q.1 = id := runFileName_inj hsmallId (by omega) (by rw [← hqid, hqname, hname])
      rwa [← hqid]
  have hperm : (found.insertionSort fun a b => a.1 ≤ b.1).Perm
      ((List.range' 1 runs.length).map fun id => (id, runFileName id)) := by
    refine (List.perm_insertionSort _ _).trans ?_
    refine (List.perm_ext_iff_of_nodup hnodup ?_).mpr hmem
    have hrange : (List.range' 1 runs.length).Nodup := List.nodup_range' 1
    exact hrange.map fun a b hab => (Prod.mk.inj hab).1
  refine hperm.eq_of_pairwise ?_ (List.pairwise_insertionSort _ _) ?_
  · intro a b ha hb hab hba
    have hida := (hids a ((List.mem_insertionSort _).mp ha)).2
    obtain ⟨id, -, rfl⟩ := List.mem_map.mp hb
    have hid : a.1 = id := Nat.le_antisymm hab hba
    rw [← hid, ← hida]
  · rw [List.pairwise_map]
    exact (List.pairwise_lt_range' 1).imp fun hlt => hlt.le

theorem Inv.reopen (h : Inv lsm runs puts) (hempty : lsm.memtable.isEmpty)
    (hsmall : runs.length + 1 < 2 ^ 32) {listing : List DirEntry}
    (hlisting : listing.Perm lsm.dir) (config : SimpleLsmConfig) :
    ∃ lsm', SimpleLsm.open listing config = .ok lsm' ∧ Inv lsm' runs puts := by
  obtain ⟨found, hok, hsorted⟩ := h.discovered hempty hsmall hlisting
  simp only [SimpleLsm.open, hok, hsorted, bind, Except.bind]
  refine ⟨_, rfl, ?_⟩
  refine ⟨(hlisting.map _).nodup_iff.mpr h.names, by simp, ?_, ?_, ?_, ?_⟩
  · cases hruns : runs.length with
    | zero => simp
    | succ n =>
      simp only [List.range'_concat, List.map_append, List.map_singleton, List.getLast?_append,
        List.getLast?_singleton, Option.some_or, Option.elim_some]
      omega
  · intro e he hrun
    obtain ⟨id, hname, hpos, hid⟩ := h.listed e (hlisting.mem_iff.mp he) hrun
    exact ⟨id, hname, hpos, Or.inl (by simpa [hempty] using hid)⟩
  · intro i es hes
    obtain ⟨e, he, hrest⟩ := h.stored i es hes
    exact ⟨e, hlisting.mem_iff.mpr he, hrest⟩
  · intro key
    rw [h.reads key, Std.TreeMap.getElem?_of_isEmpty hempty]
    simp

/-- A lookup takes the newest run that knows the key. -/
theorem getFromRuns_eq {dir : List DirEntry} (hnames : (dir.map (·.name)).Nodup) (key : Bytes)
    {paths : List Name} {newest : List (List RunEntry)}
    (h : List.Forall₂ (fun path es => ∃ e ∈ dir, e.isFile ∧ e.name = path ∧ Holds e.contents es)
      paths newest) :
    SimpleLsm.getFromRuns dir key paths = .ok (newest.findSome? (lookup key)) := by
  induction h with
  | nil => rfl
  | @cons path es paths newest hhead htail ih =>
    obtain ⟨e, he, hfile, rfl, r, hopen, -, hget⟩ := hhead
    simp only [SimpleLsm.getFromRuns, readFile_eq_ok hnames he hfile rfl, hopen, hget, bind,
      Except.bind, List.findSome?_cons, lookup]
    cases (es.find? fun e => e.key = key).map (·.value) with
    | none => exact ih
    | some value => rfl

theorem Inv.get (h : Inv lsm runs puts) (key : Bytes) :
    lsm.get key = .ok (lastWriter puts key) := by
  rw [SimpleLsm.get, h.reads key]
  cases lsm.memtable[key]? with
  | some value => rfl
  | none =>
    have hruns : List.Forall₂ (fun path es => ∃ e ∈ lsm.dir, e.isFile ∧ e.name = path ∧
        Holds e.contents es) lsm.level0Runs runs := by
      rw [h.level0, List.forall₂_iff_get]
      refine ⟨by simp, ?_⟩
      intro i hi hi'
      obtain ⟨e, he, hfile, hname, hholds⟩ := h.stored i _ (List.getElem?_eq_getElem hi')
      refine ⟨e, he, hfile, ?_, by simpa using hholds⟩
      simp [hname, Nat.add_comm]
    simpa using getFromRuns_eq h.names key (List.forall₂_reverse_iff.mpr hruns)

theorem Inv.create {listing : List DirEntry} {config : SimpleLsmConfig}
    (hnames : (listing.map (·.name)).Nodup)
    (hnew : ∀ e ∈ listing, (splitExtension e.name).2 ≠ some runExtension)
    (h : SimpleLsm.open listing config = .ok lsm) : Inv lsm [] [] := by
  have hrun : ∀ e ∈ listing, ¬ e.isRun := by
    intro e he
    simp [DirEntry.isRun, hnew e he]
  obtain ⟨found, hok, hfound, -⟩ := discover_ok fun e he h => absurd h (hrun e he)
  have hnil : found = [] := by
    rw [List.filter_eq_nil_iff.mpr hrun, List.map_nil] at hfound
    exact List.map_eq_nil_iff.mp hfound
  simp only [SimpleLsm.open, hok, hnil, bind, Except.bind] at h
  cases h
  exact ⟨hnames, rfl, rfl, fun e he h => absurd h (hrun e he), by simp, by simp [lastWriter]⟩

theorem Reachable.inv {flushes : ℕ} (h : Reachable lsm puts flushes)
    (hflushes : flushes < 2 ^ 32 - 1) : ∃ runs, Inv lsm runs puts ∧ runs.length = flushes := by
  induction h with
  | create hnames hnew h => exact ⟨[], Inv.create hnames hnew h, rfl⟩
  | put key value createdUnixS torn _ ih =>
    obtain ⟨runs, hinv, rfl⟩ := ih (by omega)
    exact hinv.put key value createdUnixS torn hflushes
  | flush createdUnixS torn _ ih =>
    obtain ⟨runs, hinv, rfl⟩ := ih (by omega)
    exact hinv.flushMemtable createdUnixS torn hflushes
  | @reopen lsm lsm' puts flushes listing config _ hempty hlisting h ih =>
    obtain ⟨runs, hinv, rfl⟩ := ih hflushes
    obtain ⟨opened, hok, hopened⟩ := hinv.reopen hempty (by omega) hlisting config
    rw [hok] at h
    cases h
    exact ⟨runs, hopened, rfl⟩

end Invariant

/-- After any puts, flushes and reopens a key reads as its last put, and right after a flush the
directory opens again. -/
theorem lsm_last_writer_wins {lsm : SimpleLsm} {puts : List (Bytes × Bytes)} {flushes : ℕ}
    (h : Reachable lsm puts flushes) (hflushes : flushes < 2 ^ 32 - 1) :
    (∀ key, lsm.get key = .ok (lastWriter puts key)) ∧
      (lsm.memtable.isEmpty → ∀ listing config, listing.Perm lsm.dir →
        ∃ lsm', SimpleLsm.open listing config = .ok lsm') := by
  obtain ⟨runs, hinv, hlen⟩ := h.inv hflushes
  refine ⟨hinv.get, ?_⟩
  intro hempty listing config hlisting
  obtain ⟨lsm', hok, -⟩ := hinv.reopen hempty (by omega) hlisting config
  exact ⟨lsm', hok⟩

theorem flushed_le (result : Except RunError (Option Name)) : flushed result ≤ 1 := by
  unfold flushed
  split <;> omega

/-- A key in two runs, read through a reopened tree. -/
theorem lsm_last_writer_wins_sample :
    ∃ lsm flushes, Reachable lsm [([1], [10]), ([2], [20]), ([1], [11])] flushes ∧
      flushes < 2 ^ 32 - 1 ∧ lsm.level0Runs.length = 2 ∧ lsm.get [1] = .ok (some [11]) ∧
      lsm.get [3] = .ok none := by
  let config : SimpleLsmConfig := ⟨0, 2⟩
  let created : SimpleLsm := ⟨[], config, ∅, [], 1⟩
  let first := (created.put [1] [10] 0 []).2
  let second := (first.put [2] [20] 0 []).2
  let third := (second.put [1] [11] 0 []).2
  let written := (third.flushMemtable 0 []).2
  have hopened : SimpleLsm.open [] config = .ok created := rfl
  have hcreated : Reachable created [] 0 := Reachable.create (by simp) (by simp) hopened
  have hwritten := (((hcreated.put [1] [10] 0 []).put [2] [20] 0 []).put [1] [11] 0 []).flush 0 []
  have hcount : 0 + flushed (created.put [1] [10] 0 []).1 + flushed (first.put [2] [20] 0 []).1 +
      flushed (second.put [1] [11] 0 []).1 + flushed (third.flushMemtable 0 []).1 <
        2 ^ 32 - 1 := by
    have h1 := flushed_le (created.put [1] [10] 0 []).1
    have h2 := flushed_le (first.put [2] [20] 0 []).1
    have h3 := flushed_le (second.put [1] [11] 0 []).1
    have h4 := flushed_le (third.flushMemtable 0 []).1
    omega
  have hempty : written.memtable.isEmpty := by decide +kernel
  have hruns : (SimpleLsm.open written.dir config).map (·.level0Runs.length) = .ok 2 := by
    decide +kernel
  obtain ⟨lsm, hopen⟩ :=
    (lsm_last_writer_wins hwritten hcount).2 hempty written.dir config (List.Perm.refl _)
  rw [hopen] at hruns
  have hreopened := Reachable.reopen hwritten hempty (List.Perm.refl _) hopen
  have hget := (lsm_last_writer_wins hreopened hcount).1
  exact ⟨lsm, _, hreopened, hcount, by simpa [Except.map] using hruns,
    (hget [1]).trans (by decide), (hget [3]).trans (by decide)⟩

end SkeinDB.Runs
