import Mathlib.Data.List.Basic
import Mathlib.Data.Int.Notation

/-! # What an epoch's status may say

The vocabulary of the public index, the rule that checks a status against the proof beside it,
and the rule that decides an epoch was left open for ever. What the daemon posts is JSON, and
nothing of it is taken for granted. -/

namespace Zkasper.Api

/-! ## JSON -/

/-- A JSON value. Its numbers are integers of any size, where the source has doubles, which are
integers up to `2 ^ 53` and rounded above; nothing here computes with a fraction. -/
inductive Json where
  | null
  | bool (b : Bool)
  | num (n : ℤ)
  | str (s : String)
  | arr (items : List Json)
  | obj (fields : List (String × Json))

namespace Json

/-- The fields of an object. -/
def fields : Json → List (String × Json)
  | .obj fields => fields
  | _ => []

/-- `d.key`; none is `undefined`. -/
def get? (d : Json) (key : String) : Option Json :=
  (d.fields.find? fun field => field.1 = key).map (·.2)

/-- `typeof v === "object"`, and not `null`. -/
def isObject : Json → Bool
  | .obj _ | .arr _ => true
  | _ => false

/-- It has no keys. -/
def isEmpty : Json → Bool
  | .obj fields => fields.isEmpty
  | .arr items => items.isEmpty
  | _ => true

/-- An object that is no array. -/
def isRecord : Json → Bool
  | .obj _ => true
  | _ => false

/-- Write a field, in its place if there is one. -/
def setField (key : String) (value : Json) : List (String × Json) → List (String × Json)
  | [] => [(key, value)]
  | field :: fields =>
      if field.1 = key then (key, value) :: fields else field :: setField key value fields

def set (d : Json) (key : String) (value : Json) : Json := .obj (setField key value d.fields)

def erase (d : Json) (key : String) : Json := .obj (d.fields.filter fun field => field.1 ≠ key)

/-- `{ ...d, ...v }` -/
def spread (d v : Json) : Json :=
  .obj (v.fields.foldl (fun fields field => setField field.1 field.2 fields) d.fields)

end Json

/-- `num` -/
def num : Option Json → Option ℤ
  | some (.num n) => some n
  | _ => none

/-- The value, if it is a string. -/
def str : Option Json → Option String
  | some (.str s) => some s
  | _ => none

/-- The value, if it is there and not `null`. -/
def defined : Option Json → Option Json
  | none | some .null => none
  | some v => some v

/-! ## Statuses -/

/-- Whether a proof reference is one a consumer can actually fetch. -/
def proofAvailable (p : Option Json) : Bool :=
  match p with
  | some p =>
      match p.get? "available", num (p.get? "bytes") with
      | some (.bool true), some bytes => 0 < bytes
      | _, _ => false
  | none => false

/-- A record that says `proven` over a proof with no bytes is stored as `unproven`; any other
status is the daemon's to say. -/
def statusForProof (declared proof : Option Json) : Option String :=
  (str declared).map fun status =>
    if status ≠ "proven" then status else if proofAvailable proof then "proven" else "unproven"

/-- Whether an epoch still marked `proving` is one nothing will ever finish: a later one has been
heard of, and it is not the one the daemon says it is at. -/
def isStranded (status : Json) (epoch highestEpoch : ℤ) (currentEpoch : Option ℤ) : Bool :=
  if currentEpoch = some epoch then false
  else match status with
    | .str s => s = "proving" && epoch < highestEpoch
    | _ => false

end Zkasper.Api
