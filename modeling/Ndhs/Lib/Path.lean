import Mathlib.Tactic.Common

/-!
# Paths of files

A path is the list of the names on the way from the root. A text leads there from a directory: its components are
separated by slashes, an empty one and `.` stay, and `..` goes up, in the root nowhere. A text that begins with a slash
is read from the root. There are no symbolic links.

`resolve_slash`: what is behind a slash is read from where the text in front of it leads.
-/

namespace Path

variable {dir cwd : List (List Char)} {s t : List Char}

/-- One component of a text -/
def enter (dir : List (List Char)) (name : List Char) : List (List Char) :=
  if name = [] ∨ name = ['.'] then dir else if name = ['.', '.'] then dir.dropLast else dir ++ [name]

/-- All components, from a directory -/
def walk (dir : List (List Char)) (s : List Char) : List (List Char) := (s.splitOn '/').foldl enter dir

/-- A text that does not depend on the directory. -/
def isAbsolute (s : List Char) : Bool := s.head? == some '/'

/-- Where a text leads -/
def resolve (cwd : List (List Char)) (s : List Char) : List (List Char) := walk (if isAbsolute s then [] else cwd) s

/-- The name of an entry of a directory -/
def Plain (name : List Char) : Prop := '/' ∉ name ∧ name ≠ [] ∧ name ≠ ['.'] ∧ name ≠ ['.', '.']

instance (name : List Char) : Decidable (Plain name) := inferInstanceAs (Decidable (_ ∧ _))

theorem walk_slash (dir : List (List Char)) (s t : List Char) : walk dir (s ++ '/' :: t) = walk (walk dir s) t := by
  have hslash : ('/' == '/') = true := rfl
  have hsplit : (s ++ '/' :: t).splitOn '/' = s.splitOn '/' ++ t.splitOn '/' := List.splitOnP_append_cons s t hslash
  rw [walk, hsplit, List.foldl_append]
  rfl

theorem isAbsolute_slash (s t : List Char) : isAbsolute (s ++ '/' :: t) = isAbsolute (s ++ ['/']) := by
  cases s <;> rfl

/-- What is behind a slash is read from where the text in front of it leads. -/
theorem resolve_slash (cwd : List (List Char)) (s t : List Char) :
    resolve cwd (s ++ '/' :: t) = walk (resolve cwd (s ++ ['/'])) t := by
  have hempty (dir : List (List Char)) : walk dir [] = dir := rfl
  unfold resolve
  rw [isAbsolute_slash, walk_slash, walk_slash, hempty]

theorem walk_plain (hs : Plain s) (dir : List (List Char)) : walk dir s = dir ++ [s] := by
  have hsplit : s.splitOn '/' = [s] :=
    List.splitOnP_eq_singleton fun c hc => beq_false_of_ne fun (h : c = '/') => hs.1 (h ▸ hc)
  rw [walk, hsplit]
  exact (if_neg (not_or.mpr ⟨hs.2.1, hs.2.2.1⟩)).trans (if_neg hs.2.2.2)

theorem resolve_plain (hs : Plain s) (cwd : List (List Char)) : resolve cwd s = cwd ++ [s] := by
  have hrel : isAbsolute s = false := by
    cases s with
    | nil => rfl
    | cons c s =>
      have hne : c ≠ '/' := fun h => hs.1 (h ▸ List.mem_cons_self)
      simp [isAbsolute, hne]
  rw [resolve, hrel, if_neg Bool.false_ne_true, walk_plain hs]

end Path
