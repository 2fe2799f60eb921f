import CallLesson.Framework.Exec
import CallLesson.Framework.Sql

/-! # The statements with the credentials

    `user_table::login` and `user_table::insert` in `game/source/db.hpp` write the name and
    the password of a user into an SQL statement with `sprintf`, as they come from the
    request: between the quotes of the format, into a buffer of 4096 bytes. Both members
    have been found to be strings before. What the database answers is not part of this. -/

namespace CallLesson.Gobang

open Text Sql

/-! ## Model -/

def sprintf : Bytes → List Bytes → Bytes
  | 37 :: 115 :: fmt, arg :: args => cString arg ++ sprintf fmt args
  | c :: fmt, args => c :: sprintf fmt args
  | [], _ => []

def loginUser : Bytes := ascii
  "select id,score,total_count,win_count from user where username='%s' and password=password('%s');"

def insertUser : Bytes := ascii "insert into user values(null,'%s',password('%s'),1000,0,0);"

def formatSql (fmt : Bytes) (args : List Bytes) : Except Fault Bytes :=
  if (sprintf fmt args).length + 1 ≤ 4096 then .ok (sprintf fmt args) else .error .badAccess

def loginStatement (username password : Bytes) : Except Fault Bytes :=
  formatSql loginUser [username, password]

def insertStatement (username password : Bytes) : Except Fault Bytes :=
  formatSql insertUser [username, password]

/-! ## The templates -/

structure Template where
  before : List Token
  middle : List Token
  after : List Token

def Template.tokens (t : Template) (username password : Bytes) : List Token :=
  t.before ++ .str username :: (t.middle ++ .str password :: t.after)

def word (s : String) : Token := .word (ascii s)

def comma : Token := .symbol 44

def equals : Token := .symbol 61

def lparen : Token := .symbol 40

def rparen : Token := .symbol 41

def semicolon : Token := .symbol 59

def loginTemplate : Template where
  before := [word "select", word "id", comma, word "score", comma, word "total_count", comma,
    word "win_count", word "from", word "user", word "where", word "username", equals]
  middle := [word "and", word "password", equals, word "password", lparen]
  after := [rparen, semicolon]

def insertTemplate : Template where
  before := [word "insert", word "into", word "user", word "values", lparen, word "null", comma]
  middle := [comma, word "password", lparen]
  after := [rparen, comma, word "1000", comma, word "0", comma, word "0", rparen, semicolon]

section statements

variable {before middle after : Bytes}

theorem sprintf_append {text : Bytes} (h : 37 ∉ text) (fmt : Bytes) (args : List Bytes) :
    sprintf (text ++ fmt) args = text ++ sprintf fmt args := by
  induction text with
  | nil => rfl
  | cons c text ih =>
    have hc : c ≠ 37 := fun hc => h (hc ▸ List.mem_cons_self)
    rw [List.cons_append, sprintf, ih fun hmem => h (List.mem_cons_of_mem c hmem), List.cons_append]
    exact fun _ _ _ _ hpercent => absurd hpercent hc

theorem sprintf_two (hbefore : 37 ∉ before) (hmiddle : 37 ∉ middle) (hafter : 37 ∉ after)
    (username password : Bytes) :
    sprintf (before ++ ascii "'%s'" ++ middle ++ ascii "'%s'" ++ after) [username, password] =
      before ++ 39 :: (cString username ++ 39 :: (middle ++
        39 :: (cString password ++ 39 :: after))) := by
  have hone : 37 ∉ [(39 : UInt8)] := by simp
  have hquote : 37 ∉ 39 :: middle := by simp [hmiddle]
  have hquote' : 37 ∉ 39 :: after := by simp [hafter]
  have hsplit : before ++ ascii "'%s'" ++ middle ++ ascii "'%s'" ++ after =
      before ++ ([39] ++ 37 :: 115 :: ((39 :: middle) ++ ([39] ++ 37 :: 115 ::
        ((39 :: after) ++ [])))) := by
    simp [ascii]
  rw [hsplit, sprintf_append hbefore, sprintf_append hone, sprintf, sprintf_append hquote,
    sprintf_append hone, sprintf, sprintf_append hquote', sprintf]
  simp

/-! ## The credentials -/

def PartsFit (fmt : Bytes) (t : Template) (before middle after : Bytes) (blanks : Nat) : Prop :=
  fmt = before ++ ascii "'%s'" ++ middle ++ ascii "'%s'" ++ after ∧
    (37 ∉ before ∧ 37 ∉ middle ∧ 37 ∉ after) ∧
    scan .between before = (t.before, .between) ∧
    scan .between middle = (t.middle, .between) ∧
    lexFrom .between after = some t.after ∧
    middle.length = size t.middle + blanks ∧ after.length = size t.after ∧
    39 ∉ middle.take (blanks + 1) ∧ blanks < middle.length ∧ 39 ∉ after.take 1

theorem loginUser_parts : loginUser.length = 96 ∧ PartsFit loginUser loginTemplate
      (ascii "select id,score,total_count,win_count from user where username=")
      (ascii " and password=password(") (ascii ");") 2 := by
  unfold PartsFit
  decide +kernel

theorem insertUser_parts : insertUser.length = 59 ∧
    PartsFit insertUser insertTemplate (ascii "insert into user values(null,")
      (ascii ",password(") (ascii "),1000,0,0);") 0 := by
  unfold PartsFit
  decide +kernel

def Safe (s : Bytes) : Prop := 0 ∉ s ∧ denotesItself s = true

theorem length_cString_le (s : Bytes) : (cString s).length ≤ s.length :=
  (List.takeWhile_sublist _).length_le

theorem statement_iff {fmt : Bytes} {t : Template} {blanks : Nat}
    (hparts : PartsFit fmt t before middle after blanks) (username password : Bytes) :
    (∃ sql, formatSql fmt [username, password] = .ok sql ∧
        lex sql = some (t.tokens username password)) ↔
      fmt.length - 4 + username.length + password.length + 1 ≤ 4096 ∧ Safe username ∧
        Safe password := by
  obtain ⟨hfmt, ⟨hplain, hplain', hplain''⟩, hbefore, hmiddle, hafter, hsize, hsize', hfar, hblanks,
    hfar'⟩ := hparts
  have htext := sprintf_two hplain hplain' hplain'' username password
  rw [← hfmt] at htext
  have hlex := template_iff hbefore hmiddle hafter hsize hsize' hfar hblanks hfar'
    (length_cString_le username) (length_cString_le password)
  rw [← htext, cString_eq_self_iff, cString_eq_self_iff] at hlex
  -- without a NUL, the arguments are in the text with all their bytes
  replace hfmt := congrArg List.length hfmt
  have hlength := congrArg List.length htext
  have hfour : (ascii "'%s'").length = 4 := rfl
  simp only [List.length_append, List.length_cons, hfour] at hfmt hlength
  unfold formatSql
  constructor
  · rintro ⟨sql, hsql, htokens⟩
    split at hsql
    · cases hsql
      obtain ⟨hu, hp⟩ := hlex.mp htokens
      rw [cString_eq_self_iff.mpr hu.1, cString_eq_self_iff.mpr hp.1] at hlength
      exact ⟨by omega, hu, hp⟩
    · cases hsql
  · rintro ⟨hfits, hu, hp⟩
    rw [cString_eq_self_iff.mpr hu.1, cString_eq_self_iff.mpr hp.1] at hlength
    exact ⟨_, if_pos (by omega), hlex.mpr ⟨hu, hp⟩⟩

/-- **The credentials**: the statement of `login` fits into its buffer and is read as the
    template with the two texts in it if and only if there is room for them in the buffer,
    and neither has a NUL, a quote, or a backslash other than in `\%` and `\_`. -/
theorem login_credentials_iff (username password : Bytes) :
    (∃ sql, loginStatement username password = .ok sql ∧
        lex sql = some (loginTemplate.tokens username password)) ↔
      username.length + password.length ≤ 4003 ∧ Safe username ∧ Safe password := by
  rw [loginStatement, statement_iff loginUser_parts.2, loginUser_parts.1]
  exact and_congr_left' (by omega)

/-- The same of `insert`. -/
theorem insert_credentials_iff (username password : Bytes) :
    (∃ sql, insertStatement username password = .ok sql ∧
        lex sql = some (insertTemplate.tokens username password)) ↔
      username.length + password.length ≤ 4040 ∧ Safe username ∧ Safe password := by
  rw [insertStatement, statement_iff insertUser_parts.2, insertUser_parts.1]
  exact and_congr_left' (by omega)

/-- A name with quotes in it adds a condition to the statement. -/
theorem login_injection : ∃ sql, loginStatement (ascii "' or '1'='1") (ascii "x") = .ok sql ∧
      lex sql = some (loginTemplate.before ++
        [.str [], word "or", .str (ascii "1"), equals, .str (ascii "1")] ++
        loginTemplate.middle ++ .str (ascii "x") :: loginTemplate.after) ∧
      lex sql ≠ some (loginTemplate.tokens (ascii "' or '1'='1") (ascii "x")) := by
  refine ⟨sprintf loginUser [ascii "' or '1'='1", ascii "x"], ?_⟩
  decide +kernel

end statements

end CallLesson.Gobang
