import Mathlib.Data.List.DropRight
import Netstar.Lib.Run

/-!
# `Netstar.Lib.PathNames`: the names in a path

A path is a list of bytes. Its names are what stands between its slashes, where nothing and a dot do
not count. Walking over them from a place, which is the list of the names that lead to it, two dots
go back by one name and stay where they are at the root. No name is a symbolic link.

A walk can be reduced beforehand: first it goes back by some names, then it goes forward
(`walk_eq_reduced`). So the place that a path leads to is known from the place where it starts and
these two.
-/

set_option autoImplicit false

namespace Netstar.Lib.PathNames

/-- A slash. -/
def separator : UInt8 := 47

/-- A dot. -/
def period : UInt8 := 46

/-- The names in a path. -/
def names (path : List UInt8) : List (List UInt8) :=
  (path.splitOn separator).filter fun name => name ≠ [] && name ≠ [period]

/-- A walk goes over a name. -/
def walkStep (place : List (List UInt8)) (name : List UInt8) : List (List UInt8) :=
  if name = [period, period] then place.dropLast else place ++ [name]

/-- A walk over names. -/
def walkNames (place : List (List UInt8)) (ns : List (List UInt8)) : List (List UInt8) :=
  ns.foldl walkStep place

/-- Where a walk starts: at the root, or at the directory of the process. -/
def startOf (cwd : List (List UInt8)) (path : List UInt8) : List (List UInt8) :=
  if path.head? = some separator then [] else cwd

/-- The place that a path leads to. -/
def resolvePath (cwd : List (List UInt8)) (path : List UInt8) : List (List UInt8) :=
  walkNames (startOf cwd path) (names path)

/-! ### Names -/

/-- Behind a slash the names go on. -/
theorem names_append (a b : List UInt8) :
    names (a ++ separator :: b) = names a ++ names b := by
  rw [names, List.splitOn_append_cons_self, List.filter_append]
  rfl

/-- An empty path has no names. -/
theorem names_nil : names [] = [] := rfl

/-- Walking over two lists of names, one after the other. -/
theorem walkNames_append (place ns ms : List (List UInt8)) :
    walkNames place (ns ++ ms) = walkNames (walkNames place ns) ms := List.foldl_append

/-- The part of a path up to its last slash. -/
def directoryPart (path : List UInt8) : List UInt8 := path.rdropWhile (· ≠ separator)

/-- The part of a path behind its last slash. -/
def namePart (path : List UInt8) : List UInt8 := path.rtakeWhile (· ≠ separator)

/-- A path is its directory and its name. -/
theorem directoryPart_append_namePart (path : List UInt8) :
    directoryPart path ++ namePart path = path := List.rdropWhile_append_rtakeWhile

/-- The directory part is empty, or it ends with a slash. -/
theorem directoryPart_cases (path : List UInt8) :
    directoryPart path = [] ∨ ∃ a, directoryPart path = a ++ [separator] := by
  by_cases hne : directoryPart path = []
  · exact Or.inl hne
  · have hlast : ¬decide ((directoryPart path).getLast hne ≠ separator) = true :=
      List.rdropWhile_last_not (· ≠ separator) path hne
    have hsep : (directoryPart path).getLast hne = separator := by simpa using hlast
    rw [← List.dropLast_append_getLast hne, hsep]
    exact Or.inr ⟨_, rfl⟩

/-- The place from which a path leads on behind the directory part of another one. -/
def baseOf (cwd : List (List UInt8)) (directory rest : List UInt8) : List (List UInt8) :=
  if directory = [] then startOf cwd rest else resolvePath cwd directory

/-! ### Reduced walks -/

/-- A reduced walk: how many names it goes back, and the names that it then goes forward. -/
def reduceStep (walk : Nat × List (List UInt8)) (name : List UInt8) : Nat × List (List UInt8) :=
  if name = [period, period] then
    if walk.2 = [] then (walk.1 + 1, []) else (walk.1, walk.2.dropLast)
  else (walk.1, walk.2 ++ [name])

/-- The names of a walk, reduced. -/
def reduceNames (ns : List (List UInt8)) : Nat × List (List UInt8) := ns.foldl reduceStep (0, [])

/-- Where a reduced walk leads to. -/
def follow (place : List (List UInt8)) (walk : Nat × List (List UInt8)) : List (List UInt8) :=
  place.take (place.length - walk.1) ++ walk.2

/-- Reducing a name first and walking then is the walk over the name. -/
theorem follow_reduceStep (place : List (List UInt8)) (walk : Nat × List (List UInt8))
    (name : List UInt8) :
    follow place (reduceStep walk name) = walkStep (follow place walk) name := by
  rw [reduceStep, walkStep]
  split
  case isFalse => exact (List.append_assoc ..).symm
  case isTrue =>
    split
    case isTrue hnil =>
      rw [follow, follow, hnil, List.append_nil, List.append_nil, List.dropLast_eq_take,
        List.take_take, List.length_take]
      congr 1
      omega
    case isFalse hne =>
      exact (List.dropLast_append_of_ne_nil hne).symm

/-- A walk leads to the same place when it is reduced. The induction goes over the names from the
last one on, as the walk does. -/
theorem walkNames_eq_follow (place ns : List (List UInt8)) :
    walkNames place ns = follow place (reduceNames ns) := by
  induction ns using List.reverseRecOn with
  | nil =>
    rw [reduceNames, List.foldl_nil, follow, Nat.sub_zero, List.take_length, List.append_nil]
    rfl
  | append_singleton ns name ih =>
    have hreduce : reduceNames (ns ++ [name]) = reduceStep (reduceNames ns) name := by
      rw [reduceNames, List.foldl_append]
      rfl
    rw [walkNames_append, ih, hreduce]
    exact (follow_reduceStep place (reduceNames ns) name).symm

/-- A reduced walk stays inside the place where it starts when it goes forward again over the names
over which it goes back. -/
theorem prefix_follow_iff (place : List (List UInt8)) (walk : Nat × List (List UInt8)) :
    place <+: follow place walk ↔ place.drop (place.length - walk.1) <+: walk.2 := by
  have hinj : place.take (place.length - walk.1) ++ place.drop (place.length - walk.1) <+:
      place.take (place.length - walk.1) ++ walk.2 ↔
        place.drop (place.length - walk.1) <+: walk.2 := List.prefix_append_right_inj _
  rw [List.take_append_drop] at hinj
  exact hinj

/-- Behind a directory a path is a walk from there. -/
theorem resolvePath_append {cwd : List (List UInt8)} {directory rest : List UInt8}
    (h : directory = [] ∨ ∃ a, directory = a ++ [separator]) :
    resolvePath cwd (directory ++ rest) =
      follow (baseOf cwd directory rest) (reduceNames (names rest)) := by
  rw [← walkNames_eq_follow]
  rcases h with rfl | ⟨a, rfl⟩
  · rfl
  · have hne : a ++ [separator] ≠ [] := by simp
    have hstart : startOf cwd (a ++ [separator] ++ rest) = startOf cwd (a ++ [separator]) := by
      rw [startOf, startOf, List.head?_append_of_ne_nil _ hne]
    have hnames : names (a ++ [separator]) = names a := by
      rw [names_append, names_nil, List.append_nil]
    rw [baseOf, if_neg hne, resolvePath, resolvePath, hstart, hnames, List.append_assoc,
      List.singleton_append, names_append, walkNames_append]

end Netstar.Lib.PathNames
