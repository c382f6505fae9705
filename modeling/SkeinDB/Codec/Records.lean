import SkeinDB.Codec.LittleEndian

/-!
# Delimited records

A record is written as its fields with a delimiter between them and a line feed behind the last.
A reader that takes up each field to the byte behind it takes up the records one after another.
-/
namespace SkeinDB.Codec
variable {α β ρ : Type*}

def lineFeed : UInt8 := 10

def writeRecord (field : α → Bytes) (delimiter : UInt8) (record : List α) : Bytes :=
  List.intercalate [delimiter] (record.map field) ++ [lineFeed]

def writeRecords (field : α → Bytes) (delimiter : UInt8) (records : List (List α)) : Bytes :=
  records.flatMap (writeRecord field delimiter)

/-- A reader at the start of a field has whole records and the fields before it. It takes up the
field with the delimiter or the line feed that ends it. -/
structure TakesField (read : List (List β) → List β → Bytes → ρ) (delimiter : UInt8)
    (bytes : Bytes) (cell : β) : Prop where
  next : ∀ records record rest,
    read records record (bytes ++ delimiter :: rest) = read records (record ++ [cell]) rest
  last : ∀ records record rest,
    read records record (bytes ++ lineFeed :: rest) = read (records ++ [record ++ [cell]]) [] rest

section Records
variable {read : List (List β) → List β → Bytes → ρ} {field : α → Bytes} {cell : α → β}
  {delimiter : UInt8}

@[simp] theorem writeRecord_singleton (a : α) :
    writeRecord field delimiter [a] = field a ++ [lineFeed] := by
  simp [writeRecord]

@[simp] theorem writeRecord_cons_cons (a b : α) (record : List α) :
    writeRecord field delimiter (a :: b :: record) =
      field a ++ delimiter :: writeRecord field delimiter (b :: record) := by
  simp [writeRecord, List.intercalate_cons_cons]

@[simp] theorem writeRecords_nil : writeRecords field delimiter [] = [] := rfl

@[simp] theorem writeRecords_cons (record : List α) (records : List (List α)) :
    writeRecords field delimiter (record :: records) =
      writeRecord field delimiter record ++ writeRecords field delimiter records := rfl

theorem read_writeRecord {record : List α} (hne : record ≠ [])
    (h : ∀ a ∈ record, TakesField read delimiter (field a) (cell a))
    (records : List (List β)) (before : List β) (rest : Bytes) :
    read records before (writeRecord field delimiter record ++ rest) =
      read (records ++ [before ++ record.map cell]) [] rest := by
  induction record generalizing before with
  | nil => exact absurd rfl hne
  | cons a record ih =>
    rw [List.forall_mem_cons] at h
    cases record with
    | nil => simpa using h.1.last records before rest
    | cons b record =>
      simpa [ih (List.cons_ne_nil _ _) h.2] using
        h.1.next records before (writeRecord field delimiter (b :: record) ++ rest)

/-- The reader takes up the records that were written, whatever follows them. -/
theorem read_writeRecords {records : List (List α)} (hne : ∀ record ∈ records, record ≠ [])
    (h : ∀ record ∈ records, ∀ a ∈ record, TakesField read delimiter (field a) (cell a))
    (before : List (List β)) (rest : Bytes) :
    read before [] (writeRecords field delimiter records ++ rest) =
      read (before ++ records.map (List.map cell)) [] rest := by
  induction records generalizing before with
  | nil => simp
  | cons record records ih =>
    rw [List.forall_mem_cons] at hne h
    rw [writeRecords_cons, List.append_assoc, read_writeRecord hne.1 h.1, ih hne.2 h.2]
    simp

end Records

end SkeinDB.Codec
