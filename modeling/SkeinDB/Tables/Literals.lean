import SkeinDB.Tables.Table

/-!
# Comparing literals

`skeindb/src/engine.rs`: `cmp_lit` compares values of one kind as such, numbers and what reads as
a number as floats, and everything else as text. Values that have no text compare as equal.
-/
namespace SkeinDB.Tables

/-- The conversions between numbers, JSON values and text. -/
structure Formats where
  parseF64 : String → Option Float
  showF64 : Float → String
  showJson : Json → String

def eqIgnoreAsciiCase (a b : String) : Bool := a.map Char.toLower == b.map Char.toLower

def partialCmp (x y : Float) : Option Ordering :=
  if x < y then some .lt else if y < x then some .gt else if x == y then some .eq else none

variable (fmt : Formats)

def litToF64 : Lit → Option Float
  | .bool v => some (if v then 1 else 0)
  | .i64 v => some (Float.ofInt v)
  | .u64 v => some (Float.ofNat v)
  | .f64 v => some v
  | .dec v => fmt.parseF64 v
  | .str v => fmt.parseF64 v
  | _ => none

def litToStringForLike : Lit → Option String
  | .null => none
  | .bool v => some (if v then "1" else "0")
  | .i64 v => some (toString v)
  | .u64 v => some (toString v)
  | .f64 v => some (fmt.showF64 v)
  | .dec v => some v
  | .str v => some v
  | .bytes b64 => some b64
  | .json v => some (fmt.showJson v)
  | .date iso => some iso
  | .time iso => some iso
  | .datetime iso => some iso
  | .uuid v => some v
  | .embedding _ _ _ => none

/-- The comparison across kinds, for values that no earlier case is about. -/
def cmpMixed (a b : Lit) : Ordering :=
  match litToF64 fmt a, litToF64 fmt b with
  | some x, some y => (partialCmp x y).getD .eq
  | _, _ =>
    match litToStringForLike fmt a, litToStringForLike fmt b with
    | some x, some y => compare x y
    | _, _ => .eq

def cmpLit : Lit → Lit → Ordering
  | .i64 x, .i64 y => compare x y
  | .u64 x, .u64 y => compare x y
  | .f64 x, .f64 y => (partialCmp x y).getD .eq
  | .str x, .str y => compare x y
  | .bool x, .bool y => compare x y
  | .i64 x, .u64 y => compare x (y : ℤ)
  | .u64 x, .i64 y => compare (x : ℤ) y
  | a, b => cmpMixed fmt a b

end SkeinDB.Tables
