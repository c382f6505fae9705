import SkeinDB.Codec.LittleEndian

/-!
# Computations that may panic

Indexing, 64-bit additions and the capacities of vectors are checked while a program runs. A
computation ends in a value, in an error that it returns, or in a fault that it does not.
-/
namespace SkeinDB.Codec

inductive Fault
  | outOfBounds
  | arithmeticOverflow
  | capacityOverflow
  deriving DecidableEq, Repr

inductive Stop (ε : Type)
  | fault (fault : Fault)
  | err (e : ε)
  deriving DecidableEq, Repr

abbrev Checked (ε α : Type) := Except (Stop ε) α

/-- `isize::MAX`, the most bytes that a vector may ask for. -/
def isizeMax : ℕ := 2 ^ 63 - 1

/-- A mapped computation succeeds with the image of what it succeeds with. -/
theorem map_eq_ok_iff {ε α β : Type} {x : Except ε α} {f : α → β} {b : β} :
    x.map f = .ok b ↔ ∃ a, x = .ok a ∧ f a = b := by
  cases x with
  | error e => exact iff_of_false (fun h => by cases h) (by simp)
  | ok a =>
    refine ⟨fun h => ⟨a, rfl, Except.ok.inj h⟩, ?_⟩
    rintro ⟨_, ha, rfl⟩
    rw [Except.ok.inj ha]
    rfl

namespace Checked
variable {ε α β : Type}

/-- A computation without checked operations. -/
def lift (x : Except ε α) : Checked ε α := x.mapError .err

def add (a b : ℕ) : Checked ε ℕ :=
  if a + b < 2 ^ 64 then .ok (a + b) else .error (.fault .arithmeticOverflow)

def mul (a b : ℕ) : Checked ε ℕ :=
  if a * b < 2 ^ 64 then .ok (a * b) else .error (.fault .arithmeticOverflow)

/-- `items[i]` -/
def itemAt (items : List α) (i : ℕ) : Checked ε α :=
  match items[i]? with
  | none => .error (.fault .outOfBounds)
  | some item => .ok item

/-- `&items[lo..hi]` -/
def slice (items : List α) (lo hi : ℕ) : Checked ε (List α) :=
  if lo ≤ hi ∧ hi ≤ items.length then .ok ((items.take hi).drop lo)
  else .error (.fault .outOfBounds)

/-- `Vec::with_capacity(count)` for items of a size. -/
def withCapacity (size count : ℕ) : Checked ε (List α) :=
  if size * count ≤ isizeMax then .ok [] else .error (.fault .capacityOverflow)

/-- `Vec::with_capacity(count)` for items of a size, where a vector may ask for so many bytes. -/
def reserve (limit size count : ℕ) : Checked ε (List α) :=
  if size * count ≤ limit then .ok [] else .error (.fault .capacityOverflow)

/-- `extend_from_slice` of a vector of bytes. -/
def extend (out piece : Bytes) : Checked ε Bytes :=
  if out.length + piece.length ≤ isizeMax then .ok (out ++ piece)
  else .error (.fault .capacityOverflow)

/-- A computation without a fault. -/
def Safe (x : Checked ε α) : Prop := ∀ fault, x ≠ .error (.fault fault)

/-- A computation without a fault whose value, if it has one, is as it should be. -/
def Yields (x : Checked ε α) (P : α → Prop) : Prop := Safe x ∧ ∀ a, x = .ok a → P a

@[simp] theorem lift_ok (a : α) : lift (ε := ε) (.ok a) = .ok a := rfl

@[simp] theorem lift_error (e : ε) : lift (α := α) (.error e) = .error (.err e) := rfl

theorem lift_bind (x : Except ε α) (f : α → Except ε β) :
    lift (x >>= f) = lift x >>= fun a => lift (f a) := by
  cases x with
  | error e => rfl
  | ok a => rfl

theorem safe_lift (x : Except ε α) : Safe (lift x) := by
  intro fault h
  cases x with
  | error e => cases h
  | ok a => cases h

theorem not_safe_fault (fault : Fault) : ¬ Safe (ε := ε) (α := α) (.error (.fault fault)) :=
  fun h => h fault rfl

theorem Safe.ok (a : α) : Safe (ε := ε) (.ok a) := fun fault h => by cases h

theorem Safe.err (e : ε) : Safe (α := α) (.error (.err e)) := fun fault h => by cases h

theorem Safe.bind {x : Checked ε α} {f : α → Checked ε β} (hx : Safe x)
    (hf : ∀ a, x = .ok a → Safe (f a)) : Safe (x >>= f) := by
  rcases x with stop | a
  · exact fun fault h => hx fault (congrArg Except.error (Except.error.inj h))
  · exact hf a rfl

theorem bind_ok (a : α) (f : α → Checked ε β) : (.ok a >>= f) = f a := rfl

section Yields
variable {P P' : α → Prop} {Q : β → Prop} {x : Checked ε α} {f : α → Checked ε β} {a : α}

theorem Yields.safe (h : Yields x P) : Safe x := h.1

theorem Yields.ok (h : P a) : Yields (ε := ε) (.ok a) P :=
  ⟨.ok a, fun _ hb => Except.ok.inj hb ▸ h⟩

theorem Yields.err (e : ε) : Yields (.error (.err e)) P := ⟨.err e, fun _ h => by cases h⟩

theorem Yields.bind (hx : Yields x P) (hf : ∀ a, P a → Yields (f a) Q) : Yields (x >>= f) Q := by
  rcases x with stop | a
  · refine ⟨fun fault h => hx.1 fault (congrArg Except.error (Except.error.inj h)), ?_⟩
    exact fun b h => by cases h
  · exact hf a (hx.2 a rfl)

end Yields

theorem itemAt_eq {items : List α} {i : ℕ} {item : α} (h : items[i]? = some item) :
    itemAt (ε := ε) items i = .ok item := by
  rw [itemAt, h]

theorem add_eq {a b : ℕ} (h : a + b < 2 ^ 64) : add (ε := ε) a b = .ok (a + b) := if_pos h

theorem mul_eq {a b : ℕ} (h : a * b < 2 ^ 64) : mul (ε := ε) a b = .ok (a * b) := if_pos h

theorem reserve_eq {limit size count : ℕ} (h : size * count ≤ limit) :
    reserve (ε := ε) (α := α) limit size count = .ok [] := if_pos h

theorem slice_eq {items : List α} {lo hi : ℕ} (h : lo ≤ hi ∧ hi ≤ items.length) :
    slice (ε := ε) items lo hi = .ok ((items.take hi).drop lo) :=
  if_pos h

end Checked

end SkeinDB.Codec
