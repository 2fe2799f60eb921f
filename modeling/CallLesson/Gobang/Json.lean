import Mathlib

/-! # Messages

    A message is a JSON object. The server reads and writes its members with
    the library jsoncpp, which is not part of the repository: what the server
    uses of it is a parameter, and what it relies on are named laws. The page
    of a game reads and writes the same members. -/

namespace CallLesson.Gobang

/-- Why a handler does not return: neither is caught anywhere. -/
inductive Failure where
  /-- An uncaught `Json::LogicError`. -/
  | logicError
  /-- An access outside of the board. -/
  | badAccess
  deriving DecidableEq

/-- A JSON value; `null` is also what a member is read as that is not there. -/
inductive Value where
  | null
  | int (i : Int)
  | bool (b : Bool)
  | string (s : String)
  /-- Any other number, an array or an object, as its text. -/
  | other (text : String)
  deriving DecidableEq

/-- An object, as its members by name. -/
abbrev Json := AList fun _ : String => Value

/-- The functions of `Json::Value` that the server calls. A conversion that
    has no result throws. -/
class JsonCpp where
  /-- `operator[]`, read. -/
  field : Json → String → Value
  /-- `operator[]`, assigned to. -/
  set : Json → String → Value → Json
  /-- What reading a member leaves behind: `operator[]` adds a missing one. -/
  touch : Json → String → Json
  asInt : Value → Option Int
  asUInt64 : Value → Option Nat
  asString : Value → Option String

/-- The exception of a conversion without a result. -/
def converted {α : Type} : Option α → Except Failure α
  | some a => .ok a
  | none => .error .logicError

theorem converted_error {α : Type} {a : Option α} {e : Failure} (h : converted a = .error e) :
    e = .logicError := by
  cases a with
  | none => exact (Except.error.inj h).symm
  | some a => cases h

section

variable [JsonCpp]

@[inherit_doc JsonCpp.field]
def Json.field (j : Json) (key : String) : Value := JsonCpp.field j key

@[inherit_doc JsonCpp.set]
def Json.set (j : Json) (key : String) (v : Value) : Json := JsonCpp.set j key v

@[inherit_doc JsonCpp.touch]
def Json.touch (j : Json) (key : String) : Json := JsonCpp.touch j key

def Value.asInt (v : Value) : Except Failure Int := converted (JsonCpp.asInt v)

def Value.asUInt64 (v : Value) : Except Failure Nat := converted (JsonCpp.asUInt64 v)

def Value.asString (v : Value) : Except Failure String := converted (JsonCpp.asString v)

/-- What jsoncpp documents: a member is what was assigned to it last, reading
    does not change what is read, and the conversions of integers and strings
    return them, or throw `Json::LogicError` if the integer is out of range. -/
class LawfulJsonCpp : Prop where
  field_set_self (j : Json) (key : String) (v : Value) : (j.set key v).field key = v
  field_set_ne (j : Json) {key key' : String} (v : Value) :
    key' ≠ key → (j.set key v).field key' = j.field key'
  field_touch (j : Json) (key key' : String) : (j.touch key).field key' = j.field key'
  asInt_int (i : Int) : (Value.int i).asInt =
    if -2 ^ 31 ≤ i ∧ i < 2 ^ 31 then .ok i else .error .logicError
  asUInt64_int (i : Int) : (Value.int i).asUInt64 =
    if 0 ≤ i ∧ i < 2 ^ 64 then .ok i.toNat else .error .logicError
  asString_string (s : String) : (Value.string s).asString = .ok s

end

attribute [simp] LawfulJsonCpp.field_set_self LawfulJsonCpp.field_set_ne LawfulJsonCpp.field_touch
  LawfulJsonCpp.asString_string

namespace Value

variable [JsonCpp] [LawfulJsonCpp]

theorem eq_of_asUInt64 {n m : Nat} (h : (Value.int n).asUInt64 = .ok m) : m = n := by
  rw [LawfulJsonCpp.asUInt64_int] at h
  split at h
  · cases h
    exact Int.toNat_natCast n
  · cases h

theorem asUInt64_of_lt {n : Nat} (h : n < 2 ^ 64) : (Value.int n).asUInt64 = .ok n := by
  rw [LawfulJsonCpp.asUInt64_int, if_pos ⟨Int.natCast_nonneg n, by exact_mod_cast h⟩,
    Int.toNat_natCast]

theorem eq_of_asInt {i j : Int} (h : (Value.int i).asInt = .ok j) : j = i := by
  rw [LawfulJsonCpp.asInt_int] at h
  split at h
  · cases h
    rfl
  · cases h

end Value

/-! ## An instance

    The operations on the members themselves, to run the server on. -/

namespace JsonCpp

/-- jsoncpp as it is on the messages of the pages. -/
@[reducible] def standard : JsonCpp where
  field j key := (j.lookup key).getD .null
  set j key v := j.insert key v
  touch j key := if key ∈ j then j else j.insert key .null
  asInt
    | .null => some 0
    | .int i => if -2 ^ 31 ≤ i ∧ i < 2 ^ 31 then some i else none
    | .bool b => some (if b then 1 else 0)
    | _ => none
  asUInt64
    | .null => some 0
    | .int i => if 0 ≤ i ∧ i < 2 ^ 64 then some i.toNat else none
    | .bool b => some (if b then 1 else 0)
    | _ => none
  asString
    | .null => some ""
    | .int i => some (toString i)
    | .bool b => some (if b then "true" else "false")
    | .string s => some s
    | .other _ => none

theorem lawful_standard : @LawfulJsonCpp standard := by
  let := standard
  refine ⟨fun j key v => ?_, fun j key key' v h => ?_, fun j key key' => ?_, fun i => ?_,
    fun i => ?_, fun _ => rfl⟩
  · show ((j.insert key v).lookup key).getD .null = v
    rw [AList.lookup_insert, Option.getD_some]
  · show ((j.insert key v).lookup key').getD .null = (j.lookup key').getD .null
    rw [AList.lookup_insert_ne h]
  · show (AList.lookup key' (if key ∈ j then j else j.insert key .null)).getD .null =
      (j.lookup key').getD .null
    split
    · rfl
    · next hnot =>
      by_cases h : key' = key
      · rw [h, AList.lookup_insert, AList.lookup_eq_none.mpr hnot]
        rfl
      · rw [AList.lookup_insert_ne h]
  · exact apply_ite converted _ _ _
  · exact apply_ite converted _ _ _

end JsonCpp

end CallLesson.Gobang
