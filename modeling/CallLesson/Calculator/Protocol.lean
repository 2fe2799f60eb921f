import CallLesson.Framework.Text
import CallLesson.Framework.Frames

/-! # The calculator protocol

    `lesson_IO/Reactor/Protocol.hpp`: a message is framed by its length and two
    line separators, and requests and responses have a text codec (the one that
    `MYSELF` selects). `lesson10/cal/protol.hpp` has the same framing and the same
    codec with another reader. A function that returns a `bool` and fills in a string
    returns an option here, and `std::stoi` may throw in it. -/

namespace CallLesson.Calculator

open Text

/-! ## Framing -/

def sep : Bytes := [32]

def lineSep : Bytes := [13, 10]

def enLength (text : Bytes) : Bytes :=
  decimal text.length ++ lineSep ++ text ++ lineSep

def substr (s : Bytes) (pos : Nat) (n : Int) : Bytes :=
  if n < 0 then s.drop pos else (s.drop pos).take n.toNat

def deLength (package : Bytes) : Except StoiError (Option Bytes) :=
  match find lineSep package with
  | none => .ok none
  | some pos => do
      let textLen ← stoi (package.take pos)
      return some (substr package (pos + lineSep.length) textLen)

def parseOnePackage : Frames.Parser UInt8 StoiError := fun inbuffer =>
  match find lineSep inbuffer with
  | none => .ok none
  | some pos => do
      let textLen ← stoi (inbuffer.take pos)
      let total := Int.bmod (pos + 2 * lineSep.length + textLen) (2 ^ 32)
      if total < 0 ∨ (inbuffer.length : Int) < total then return none
      else return some (inbuffer.take total.toNat, inbuffer.drop total.toNat)

def fits (text : Bytes) : Bool := (enLength text).length < 2 ^ 31

/-! ### Frames in a buffer -/

open List

theorem enLength_length (text : Bytes) :
    (enLength text).length = (decimal text.length).length + text.length + 4 := by
  simp [enLength, lineSep]
  omega

theorem find_header (n : Nat) (body : Bytes) :
    find lineSep (decimal n ++ lineSep ++ body) = some (decimal n).length :=
  find_append [10] body (not_mem_decimal (by decide) n)

theorem take_header (n : Nat) (body : Bytes) :
    (decimal n ++ lineSep ++ body).take (decimal n).length = decimal n := by
  rw [append_assoc, take_left]

variable {n : Nat}

theorem decimal_length_le (h : n < 10 ^ 10) : (decimal n).length ≤ 10 := by
  unfold decimal
  split
  · decide
  · rwa [length_map, length_reverse, Nat.digits_length_le_iff (by decide)]

theorem parse_header (h : n < 2 ^ 31) (body : Bytes) :
    parseOnePackage (decimal n ++ lineSep ++ body) =
      if (decimal n).length + 4 + n < 2 ^ 31 ∧ n + 2 ≤ body.length then
        .ok (some (decimal n ++ lineSep ++ body.take (n + 2), body.drop (n + 2)))
      else .ok none := by
  have hlen := decimal_length_le (show n < 10 ^ 10 by omega)
  have hstoi := stoi_decimal h
  unfold parseOnePackage
  simp only [find_header, take_header, hstoi, bind, Except.bind, pure, Except.pure]
  -- the sum of sizes before it is narrowed
  have hsize : (((decimal n).length : Int) + 2 * lineSep.length + n) =
      ((decimal n).length + 4 + n : Nat) := by
    simp [lineSep]
  rw [hsize]
  by_cases hint : (decimal n).length + 4 + n < 2 ^ 31
  · have hheader : (decimal n).length + 4 + n = (decimal n ++ lineSep).length + (n + 2) := by
      simp [lineSep]
      omega
    have hbuf : (decimal n ++ lineSep ++ body).length = (decimal n ++ lineSep).length + body.length :=
      length_append
    rw [Int.bmod_eq_of_le (by omega) (by omega)]
    by_cases hbody : n + 2 ≤ body.length
    · rw [if_neg (by omega), if_pos ⟨hint, hbody⟩, Int.toNat_natCast, hheader,
        take_length_add_append, drop_length_add_append]
    · rw [if_pos (by omega), if_neg (fun h => hbody h.2)]
  · -- the sum does not fit into an int and comes out negative
    have hneg : Int.bmod ((decimal n).length + 4 + n : Nat) (2 ^ 32) < 0 := by
      rw [Int.bmod_def]
      omega
    rw [if_pos (Or.inl hneg), if_neg (fun h => hint h.1)]

theorem parse_header_large (h : 2 ^ 31 ≤ n) (body : Bytes) :
    parseOnePackage (decimal n ++ lineSep ++ body) = .error .outOfRange := by
  unfold parseOnePackage
  simp only [find_header, take_header, stoi_decimal_large h]
  rfl

theorem header_cases {s body : Bytes} (h : s <+: decimal n ++ lineSep ++ body) :
    10 ∉ s ∨ ∃ body', s = decimal n ++ lineSep ++ body' ∧ body' <+: body := by
  by_cases hlen : (decimal n ++ lineSep).length ≤ s.length
  · obtain ⟨body', rfl⟩ := prefix_of_prefix_length_le (prefix_append _ _) h hlen
    exact Or.inr ⟨body', rfl, (prefix_append_right_inj _).mp h⟩
  · left
    -- it ends within the length or after the carriage return
    have hs : s <+: decimal n ++ [13] := by
      refine prefix_of_prefix_length_le h ?_ ?_
      · exact ⟨10 :: body, by simp [lineSep]⟩
      · simp [lineSep] at hlen ⊢
        omega
    intro hmem
    have := hs.subset hmem
    simp [not_mem_decimal (show isDigit 10 = false by decide)] at this

theorem parse_of_not_mem {s : Bytes} (h : 10 ∉ s) : parseOnePackage s = .ok none := by
  unfold parseOnePackage
  rw [find_eq_none (c := 10) (by decide) h]

theorem enLength_eq (text : Bytes) :
    enLength text = decimal text.length ++ lineSep ++ (text ++ lineSep) := by
  simp [enLength]

theorem framing : Frames.Framing parseOnePackage enLength fits where
  nonempty := fun t h => by simpa [enLength_length] using congrArg length h
  empty := by decide
  whole := fun t rest hfits => by
    have hlen := enLength_length t
    have hsize : (enLength t).length < 2 ^ 31 := by simpa [fits] using hfits
    have hbody : t.length + 2 = (t ++ lineSep).length := by simp [lineSep]
    rw [enLength_eq, append_assoc, parse_header (by omega), hbody, take_left, drop_left, if_pos]
    exact ⟨by omega, by simp⟩
  cut := fun t s hfits hpre hne => by
    have hlen := enLength_length t
    have hsize : (enLength t).length < 2 ^ 31 := by simpa [fits] using hfits
    rw [enLength_eq] at hpre hne
    rcases header_cases hpre with hnot | ⟨body, rfl, hbody⟩
    · exact parse_of_not_mem hnot
    · -- the header is there, and the body is shorter than it says
      have hlt : body.length < t.length + 2 := by
        refine Nat.lt_of_not_le fun hle => hne ?_
        rw [hbody.eq_of_length_le (by simpa [lineSep] using hle)]
      rw [parse_header (by omega), if_neg (by omega)]
  oversize := fun t s hfits hcmp r => by
    have hlen := enLength_length t
    have hsize : 2 ^ 31 ≤ (enLength t).length := by simpa [fits] using hfits
    have hheader : 10 ∉ s ∨ ∃ body, s = decimal t.length ++ lineSep ++ body := by
      rcases hcmp with hpre | ⟨rest, rfl⟩
      · rw [enLength_eq] at hpre
        rcases header_cases hpre with hnot | ⟨body, heq, _⟩
        · exact Or.inl hnot
        · exact Or.inr ⟨body, heq⟩
      · exact Or.inr ⟨t ++ lineSep ++ rest, by simp [enLength]⟩
    rcases hheader with hnot | ⟨body, rfl⟩
    · rw [parse_of_not_mem hnot]
      simp
    · by_cases ht : t.length < 2 ^ 31
      · rw [parse_header ht, if_neg (by omega)]
        simp
      · rw [parse_header_large (by omega)]
        simp

theorem deLength_enLength {text : Bytes} (h : text.length < 2 ^ 31) :
    deLength (enLength text) = .ok (some text) := by
  unfold deLength
  simp only [enLength_eq, find_header, take_header, stoi_decimal h, substr]
  simp

/-! ## Requests and responses -/

inductive ExitCode where
  | ok
  | divZero
  | modZero
  | opError
  deriving DecidableEq

def ExitCode.value : ExitCode → Int32
  | ok => 0
  | divZero => 1
  | modZero => 2
  | opError => 3

structure Requse where
  x : Int32
  y : Int32
  op : UInt8
  deriving DecidableEq

structure Repose where
  exitcode : Int32
  result : Int32
  deriving DecidableEq

namespace Requse

def serialize (req : Requse) : Bytes :=
  decimalInt req.x.toInt ++ sep ++ [req.op] ++ sep ++ decimalInt req.y.toInt

def deserialize (s : Bytes) : Except StoiError (Option Requse) :=
  match find sep s, rfind sep s with
  | some left, some right =>
      if left = right then .ok none
      else if right - (left + sep.length) ≠ 1 then .ok none
      else if s.take left = [] ∨ s.drop (right + sep.length) = [] then .ok none
      else do
        let x ← stoi (s.take left)
        let y ← stoi (s.drop (right + sep.length))
        return some ⟨Int32.ofInt x, Int32.ofInt y, s.getD (left + sep.length) 0⟩
  | _, _ => .ok none

end Requse

namespace Repose

def serialize (rep : Repose) : Bytes :=
  decimalInt rep.exitcode.toInt ++ sep ++ decimalInt rep.result.toInt

def deserialize (s : Bytes) : Except StoiError (Option Repose) :=
  match find sep s with
  | none => .ok none
  | some mid => do
      let exitcode ← stoi (s.take mid)
      let result ← stoi (s.drop (mid + sep.length))
      return some ⟨Int32.ofInt exitcode, Int32.ofInt result⟩

end Repose

/-! ### The codecs read what they write -/

theorem stoi_toInt (n : Int32) : stoi (decimalInt n.toInt) = .ok n.toInt :=
  stoi_decimalInt ⟨n.le_toInt, n.toInt_lt⟩

theorem decimalInt_length_le (n : Int32) : (decimalInt n.toInt).length ≤ 11 := by
  have hlo := n.le_toInt
  have hhi := n.toInt_lt
  have hlen := decimal_length_le (show n.toInt.natAbs < 10 ^ 10 by omega)
  unfold decimalInt
  split
  · exact Nat.succ_le_succ hlen
  · exact hlen.trans (by decide)

theorem fits_of_length {text : Bytes} (h : text.length ≤ 100) : fits text = true := by
  have hlen := decimal_length_le (show text.length < 10 ^ 10 by omega)
  have := enLength_length text
  simp only [fits, decide_eq_true_eq]
  omega

theorem Requse.length_serialize_le (req : Requse) : req.serialize.length ≤ 100 := by
  have hx := decimalInt_length_le req.x
  have hy := decimalInt_length_le req.y
  simp only [serialize, sep, length_append, length_singleton]
  omega

theorem Repose.length_serialize_le (rep : Repose) : rep.serialize.length ≤ 100 := by
  have hcode := decimalInt_length_le rep.exitcode
  have hresult := decimalInt_length_le rep.result
  simp only [serialize, sep, length_append, length_singleton]
  omega

theorem sep_not_mem (z : Int) : (32 : UInt8) ∉ decimalInt z :=
  not_mem_decimalInt (by decide) (by decide) z

theorem decimalInt_ne_nil (z : Int) : decimalInt z ≠ [] := by
  unfold decimalInt
  split
  · exact cons_ne_nil _ _
  · exact decimal_ne_nil _

theorem Requse.deserialize_serialize (req : Requse) :
    Requse.deserialize req.serialize = .ok (some req) := by
  have hleft : req.serialize =
      decimalInt req.x.toInt ++ sep ++ ([req.op] ++ sep ++ decimalInt req.y.toInt) := by
    simp [serialize]
  have hfind : find sep req.serialize = some (decimalInt req.x.toInt).length :=
    hleft ▸ find_append [] _ (sep_not_mem _)
  -- the last blank is the one before the second number, also if the operator is a blank
  have hrfind : rfind sep req.serialize = some ((decimalInt req.x.toInt).length + 2) := by
    have := rfind_append (sep_not_mem req.y.toInt) (decimalInt req.x.toInt ++ sep ++ [req.op])
    simpa [serialize, sep] using this
  have htake : req.serialize.take (decimalInt req.x.toInt).length = decimalInt req.x.toInt := by
    rw [hleft, append_assoc, take_left]
  have hdrop : req.serialize.drop ((decimalInt req.x.toInt).length + 2 + sep.length) =
      decimalInt req.y.toInt := by
    have hlen : (decimalInt req.x.toInt).length + 2 + sep.length =
        (decimalInt req.x.toInt ++ sep ++ [req.op] ++ sep).length := by
      simp [sep]
    rw [hlen, serialize, drop_left]
  have hop : req.serialize.getD ((decimalInt req.x.toInt).length + sep.length) 0 = req.op := by
    rw [hleft, ← length_append, getD_append_right _ _ _ _ (Nat.le_refl _), Nat.sub_self]
    rfl
  have hne : (decimalInt req.x.toInt).length ≠ (decimalInt req.x.toInt).length + 2 := by omega
  have hone : (decimalInt req.x.toInt).length + 2 -
      ((decimalInt req.x.toInt).length + sep.length) = 1 := by
    simp [sep]
  unfold deserialize
  simp only [hfind, hrfind, htake, hdrop, hop, hne, hone, decimalInt_ne_nil, stoi_toInt, bind,
    Except.bind, pure, Except.pure, Int32.ofInt_toInt, ne_eq, not_true_eq_false, or_self, if_false]

theorem Repose.deserialize_serialize (rep : Repose) :
    Repose.deserialize rep.serialize = .ok (some rep) := by
  have hfind : find sep rep.serialize = some (decimalInt rep.exitcode.toInt).length :=
    find_append [] (decimalInt rep.result.toInt) (sep_not_mem _)
  have htake : rep.serialize.take (decimalInt rep.exitcode.toInt).length =
      decimalInt rep.exitcode.toInt := by
    rw [serialize, append_assoc, take_left]
  have hdrop : rep.serialize.drop ((decimalInt rep.exitcode.toInt).length + sep.length) =
      decimalInt rep.result.toInt := by
    rw [serialize, ← length_append, drop_left]
  unfold deserialize
  simp only [hfind, htake, hdrop, stoi_toInt, bind, Except.bind, pure, Except.pure,
    Int32.ofInt_toInt]

/-- **The text codec**: requests and responses are read back as they were written, also
    with a blank or a minus for the operator, and so is a request that was read from any
    text. -/
theorem codec_round_trips : (∀ req : Requse, Requse.deserialize req.serialize = .ok (some req)) ∧
      (∀ rep : Repose, Repose.deserialize rep.serialize = .ok (some rep)) ∧
      ∀ (s : Bytes) (req : Requse), Requse.deserialize s = .ok (some req) →
        Requse.deserialize req.serialize = .ok (some req) :=
  ⟨Requse.deserialize_serialize, Repose.deserialize_serialize,
    fun _ req _ => req.deserialize_serialize⟩

end CallLesson.Calculator
