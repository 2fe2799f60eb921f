import CallLesson.Framework.Exec
import CallLesson.Gobang.Cookies
import CallLesson.Gobang.Json
import CallLesson.Gobang.Session

/-! # The session of a connection

    `get_session_by_cookie` in `game/source/server.hpp`, with which every event on a
    websocket begins: the ssid in the `Cookie` header of the connection is looked up among
    the sessions. The header is what the client sent. There are three refusals, of which the
    first one, for an empty header, does not end the call; `std::stol` may throw, which
    nobody catches, and its result is converted to `uint64_t`. -/

namespace CallLesson.Gobang

open Text Exec

/-! ## Model -/

inductive Uncaught where
  | exception (e : StoiError)
  /-- A loop that does not end. -/
  | running
  deriving DecidableEq

abbrev ConnM := EStateM Uncaught (List Json)

def wsResp (resp : Json) : ConnM Unit := modify (· ++ [resp])

def refusal [JsonCpp] (errResp : Json) (reason : String) : Json :=
  ((errResp.set "optype" (.string "hall_ready")).set "reason" (.string reason)).set
    "result" (.bool false)

def toUInt64 (z : Int) : Nat := (z % 2 ^ 64).toNat

def getSessionBySsidStr [JsonCpp] (sm : SessionManager) (cookieStr : Bytes) (errResp : Json) :
    ConnM (Option SessionPtr) := do
  match getCookieVal cookieStr (ascii "SSID") with
  | none => throw .running
  | some none =>
      wsResp (refusal errResp "找不到ssid，请重新登陆")
      pure none
  | some (some ssidStr) =>
      match stol ssidStr with
      | .error e => throw (.exception e)
      | .ok ssid =>
          match sm.getSessionBySsid (toUInt64 ssid) with
          | none =>
              wsResp (refusal errResp "找不到session，请重新登陆")
              pure none
          | some ssp => pure (some ssp)

def getSessionByCookie [JsonCpp] (sm : SessionManager) (cookieStr : Bytes) :
    ConnM (Option SessionPtr) := do
  if cookieStr = [] then
    let errResp := refusal ∅ "找不到cookie，请重新登陆"
    wsResp errResp
    -- no `return` here
    getSessionBySsidStr sm cookieStr errResp
  else getSessionBySsidStr sm cookieStr ∅

/-! ## The exits -/

section exits

variable {sm : SessionManager} {cookieStr : Bytes} {errResp : Json} {sent : List Json}

theorem cookieLoop_ends (key : Bytes) (strs : List Bytes) : ∃ val, cookieLoop key strs = some val := by
  induction strs with
  | nil => exact ⟨none, rfl⟩
  | cons str strs ih =>
    obtain ⟨parts, hparts⟩ := split_ends 61 [] str
    have hsplit : split (ascii "=") str = some parts := hparts
    rw [cookieLoop, hsplit, Option.bind_eq_bind, Option.bind_some]
    split
    · next name val =>
      by_cases hname : name = key
      · exact ⟨some val, if_pos hname⟩
      · rwa [if_neg hname]
    · exact ih

theorem getCookieVal_ends (cookieStr key : Bytes) : ∃ val, getCookieVal cookieStr key = some val := by
  obtain ⟨parts, hparts⟩ := split_ends 59 [32] cookieStr
  have hsplit : split (ascii "; ") cookieStr = some parts := hparts
  rw [getCookieVal, hsplit, Option.bind_eq_bind, Option.bind_some]
  exact cookieLoop_ends key parts

theorem run_no_ssid [JsonCpp] (h : getCookieVal cookieStr (ascii "SSID") = some none) :
    getSessionBySsidStr sm cookieStr errResp sent =
      .ok none (sent ++ [refusal errResp "找不到ssid，请重新登陆"]) := by
  unfold getSessionBySsidStr
  rw [h]
  rfl

theorem run_throws [JsonCpp] {val : Bytes} {e : StoiError}
    (h : getCookieVal cookieStr (ascii "SSID") = some (some val)) (he : stol val = .error e) :
    getSessionBySsidStr sm cookieStr errResp sent = .error (.exception e) sent := by
  unfold getSessionBySsidStr
  rw [h]
  dsimp only
  rw [he]
  rfl

theorem run_lookup [JsonCpp] {val : Bytes} {z : Int}
    (h : getCookieVal cookieStr (ascii "SSID") = some (some val)) (hz : stol val = .ok z) :
    getSessionBySsidStr sm cookieStr errResp sent =
      match sm.getSessionBySsid (toUInt64 z) with
      | none => .ok none (sent ++ [refusal errResp "找不到session，请重新登陆"])
      | some ssp => .ok (some ssp) sent := by
  unfold getSessionBySsidStr
  rw [h]
  dsimp only
  rw [hz]
  dsimp only
  cases sm.getSessionBySsid (toUInt64 z) <;> rfl

theorem run_empty [JsonCpp] (sm : SessionManager) : getSessionByCookie sm [] [] = .ok none
    [refusal ∅ "找不到cookie，请重新登陆", refusal (refusal ∅ "找不到cookie，请重新登陆") "找不到ssid，请重新登陆"] := by
  have hnone : getCookieVal [] (ascii "SSID") = some none := by
    rw [getCookieVal, split_nil]
    rfl
  exact run_no_ssid hnone

theorem run_header [JsonCpp] (hne : cookieStr ≠ []) :
    getSessionByCookie sm cookieStr = getSessionBySsidStr sm cookieStr ∅ := if_neg hne

end exits

/-! ## All headers -/

section total

variable {sm : SessionManager} {cookieStr : Bytes}

def Answered [JsonCpp] (sm : SessionManager) (cookieStr : Bytes) : Prop :=
  ∃ ssp sent, getSessionByCookie sm cookieStr [] = .ok ssp sent ∧ sent.length ≤ 1 ∧
    (sent.length = 1 ↔ ssp = none) ∧
    ∀ sp, ssp = some sp → ∃ val, ∃ n : Nat,
      getCookieVal cookieStr (ascii "SSID") = some (some val) ∧ scanInt val = some (n : Int) ∧
        sm.getSessionBySsid n = some sp

theorem toUInt64_of_nonneg {z : Int} (h0 : 0 ≤ z) (h : z < 2 ^ 63) : (toUInt64 z : Int) = z := by
  unfold toUInt64
  omega

theorem answered_of_number [JsonCpp] {val : Bytes} {z : Int} (hne : cookieStr ≠ [])
    (hval : getCookieVal cookieStr (ascii "SSID") = some (some val)) (hz : stol val = .ok z) :
    Answered sm cookieStr ↔ (z < 0 → sm.getSessionBySsid (toUInt64 z) = none) := by
  obtain ⟨hscan, hlow, hhigh⟩ := scanInt_of_stol hz
  have hrun : getSessionByCookie sm cookieStr [] = _ := (run_header hne) ▸ run_lookup hval hz
  cases hfound : sm.getSessionBySsid (toUInt64 z) with
  | none =>
    rw [hfound] at hrun
    refine ⟨fun _ _ => rfl, fun _ => ⟨none, _, hrun, le_rfl, by simp, nofun⟩⟩
  | some sp =>
    rw [hfound] at hrun
    constructor
    · -- the session is stored under the converted number
      rintro ⟨ssp, sent, hok, -, -, hstored⟩ hneg
      cases hrun.symm.trans hok
      obtain ⟨val', n, hval', hn, -⟩ := hstored sp rfl
      obtain rfl : val = val' := Option.some_inj.mp (Option.some_inj.mp (hval.symm.trans hval'))
      have hzn := Option.some_inj.mp (hscan.symm.trans hn)
      omega
    · intro hneg
      have h0 : 0 ≤ z := not_lt.mp fun hlt => by cases hneg hlt
      refine ⟨some sp, [], hrun, Nat.zero_le 1, by simp, ?_⟩
      rintro sp' ⟨⟩
      exact ⟨val, toUInt64 z, hval, by rw [hscan, toUInt64_of_nonneg h0 hhigh], hfound⟩

/-- **The session of a connection**: for every header and every table of sessions, the call
    returns as it should if and only if there is a header and the ssid in it, if there is
    one, starts with a number in the range of `long` that is not negative, or whose
    conversion to `uint64_t` is the ssid of no session. -/
theorem session_by_cookie_iff [JsonCpp] (sm : SessionManager) (cookieStr : Bytes) :
    Answered sm cookieStr ↔ cookieStr ≠ [] ∧
      ∀ val, getCookieVal cookieStr (ascii "SSID") = some (some val) →
        ∃ z, stol val = .ok z ∧ (z < 0 → sm.getSessionBySsid (toUInt64 z) = none) := by
  by_cases hne : cookieStr = []
  · subst hne
    refine ⟨fun ⟨ssp, sent, hok, hone, _⟩ => ?_, fun h => absurd rfl h.1⟩
    cases (run_empty sm).symm.trans hok
    exact absurd hone (by simp)
  · obtain ⟨val, hval⟩ := getCookieVal_ends cookieStr (ascii "SSID")
    rw [and_iff_right hne, hval]
    -- the exits behind the first test: no ssid, no number, and the lookup
    cases val with
    | none =>
      have hrun : getSessionByCookie sm cookieStr [] = _ := (run_header hne) ▸ run_no_ssid hval
      exact ⟨fun _ _ hval' => (nomatch hval'), fun _ => ⟨none, _, hrun, le_rfl, by simp, nofun⟩⟩
    | some val =>
      have hforall : (∀ val', some (some val) = some (some val') → ∃ z, stol val' = .ok z ∧
          (z < 0 → sm.getSessionBySsid (toUInt64 z) = none)) ↔ ∃ z, stol val = .ok z ∧
          (z < 0 → sm.getSessionBySsid (toUInt64 z) = none) := by simp
      rw [hforall]
      cases hz : stol val with
      | error e =>
        have hrun : getSessionByCookie sm cookieStr [] = _ := (run_header hne) ▸ run_throws hval hz
        refine ⟨fun ⟨ssp, sent, hok, _⟩ => ?_, fun ⟨z, hz', _⟩ => by cases hz'⟩
        cases hrun.symm.trans hok
      | ok z =>
        rw [answered_of_number hne hval hz]
        simp

attribute [local instance] JsonCpp.standard

/-- Two refusals for a connection without a header, and an exception for an ssid that is not a
    number. -/
theorem session_by_cookie_fails :
    (∃ first second, getSessionByCookie SessionManager.new [] [] = .ok none [first, second]) ∧
      getSessionByCookie SessionManager.new (ascii "SSID=abc") [] =
        .error (.exception .invalidArgument) [] := by
  have hsplit : split (ascii "; ") (ascii "SSID=abc") = some [ascii "SSID=abc"] :=
    split_of_find_none (by decide) (by decide)
  have hval : getCookieVal (ascii "SSID=abc") (ascii "SSID") = some (some (ascii "abc")) := by
    rw [getCookieVal, hsplit]
    exact @cookieLoop_found (cookieOf "SSID" "abc" (by decide)) (ascii "SSID") rfl (by decide)
      (by decide) []
  have hthrows : getSessionBySsidStr SessionManager.new (ascii "SSID=abc") ∅ [] = _ :=
    run_throws hval rfl
  refine ⟨⟨_, _, run_empty _⟩, ?_⟩
  rw [run_header (by decide)]
  exact hthrows

end total

end CallLesson.Gobang
