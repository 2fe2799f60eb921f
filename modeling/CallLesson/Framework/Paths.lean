import Mathlib

/-! # Paths

    Relative paths as strings, and the directory or file that they name when `.` and
    `..` are resolved by the text alone, without a look at the file system. -/

namespace CallLesson.Paths

/-! ## Resolution -/

def slash : UInt8 := 47

def current : List UInt8 := [46]

def parent : List UInt8 := [46, 46]

def components (path : List UInt8) : List (List UInt8) := path.splitOn slash

/-- Where a component leads from a directory. -/
def enter (dir : List (List UInt8)) (name : List UInt8) : List (List UInt8) :=
  if name = [] ∨ name = current then dir
  -- a parent of a parent is kept: there is no directory to leave
  else if name = parent then
    match dir with
    | [] => [parent]
    | last :: above => if last = parent then parent :: dir else above
  else name :: dir

/-- Where a path leads. -/
def resolve (path : List UInt8) : List (List UInt8) := ((components path).foldl enter []).reverse

/-- The path leads to the directory `root`, or to something in it. -/
def Inside (root path : List UInt8) : Prop := (resolve path).head? = some root

instance (root path : List UInt8) : Decidable (Inside root path) :=
  inferInstanceAs (Decidable (_ = _))

structure Plain (name : List UInt8) : Prop where
  nonempty : name ≠ []
  ne_current : name ≠ current
  ne_parent : name ≠ parent
  no_slash : slash ∉ name

/-! ## Longer paths -/

open List

section Append

variable {root name : List UInt8}

theorem enter_of_plain (h : Plain name) (dir : List (List UInt8)) : enter dir name = name :: dir := by
  unfold enter
  rw [if_neg (not_or.mpr ⟨h.nonempty, h.ne_current⟩), if_neg h.ne_parent]

theorem components_of_plain (h : Plain name) : components name = [name] :=
  splitOn_eq_singleton h.no_slash

theorem components_append (path path' : List UInt8) :
    components (path ++ slash :: path') = components path ++ components path' :=
  splitOn_append_cons_self path path'

theorem resolve_append_slash (path : List UInt8) : resolve (path ++ [slash]) = resolve path := by
  rw [resolve, components_append, foldl_append]
  rfl

theorem resolve_append_name (h : Plain name) (path : List UInt8) :
    resolve (path ++ slash :: name) = resolve path ++ [name] := by
  rw [resolve, components_append, components_of_plain h, foldl_append, foldl_cons, foldl_nil,
    enter_of_plain h, reverse_cons, resolve]

theorem inside_append_name (h : Plain name) (hne : name ≠ root) (path : List UInt8) :
    Inside root (path ++ slash :: name) ↔ Inside root path := by
  rw [Inside, Inside, resolve_append_name h]
  cases resolve path with
  | nil => simp [hne]
  | cons top rest => rfl

theorem inside_append_slash (path : List UInt8) : Inside root (path ++ [slash]) ↔ Inside root path := by
  rw [Inside, Inside, resolve_append_slash]

end Append

theorem suffix_foldl_enter (names : List (List UInt8)) :
    ∀ dir, parent ∉ names → dir <:+ names.foldl enter dir := by
  induction names with
  | nil =>
    intro dir _
    exact suffix_refl dir
  | cons name names ih =>
    intro dir hnot
    rw [mem_cons, not_or] at hnot
    obtain ⟨hne, hnot⟩ := hnot
    -- one component only adds to the directory, and so do the others
    refine List.IsSuffix.trans ?_ (ih (enter dir name) hnot)
    unfold enter
    rw [if_neg (Ne.symm hne)]
    split
    · exact suffix_refl dir
    · exact suffix_cons name dir

theorem inside_of_no_parent {root path : List UInt8} (h : Plain root)
    (hnot : parent ∉ components path) : Inside root (root ++ slash :: path) := by
  obtain ⟨rest, hrest⟩ := suffix_foldl_enter (components path) [root] hnot
  rw [Inside, resolve, components_append, components_of_plain h, singleton_append, foldl_cons,
    enter_of_plain h, ← hrest, reverse_append]
  rfl

end CallLesson.Paths
