import Mathlib.Data.List.Basic
import Mathlib.Logic.Function.Basic

/-! Trees of directories without links. A node is the list of the names on the way to it
from the root; a path is a list of moves that each need a directory to start from. -/
namespace UdpFileProxy.Lib.Directories

inductive Kind where
  | directory
  | other
  deriving DecidableEq, Repr

/-- What stands at each node. A node is in a directory, the root in itself. -/
@[ext] structure DirTree (Name : Type*) where
  kind : List Name → Option Kind
  root : kind [] = some .directory
  parent : ∀ node, kind node ≠ none → kind node.dropLast = some .directory

inductive Move (Name : Type*) where
  | stay
  | up
  | down (name : Name)
  deriving DecidableEq, Repr

variable {Name : Type*}

def Move.apply : Move Name → List Name → List Name
  | .stay, node => node
  | .up, node => node.dropLast
  | .down name, node => node ++ [name]

namespace DirTree

/-- Where the moves lead. The last node need not exist. -/
def walk (tree : DirTree Name) : List Name → List (Move Name) → Option (List Name)
  | node, [] => some node
  | node, move :: rest =>
      if tree.kind node = some .directory then tree.walk (move.apply node) rest else none

/-- The tree with one more directory. -/
def create [DecidableEq Name] (tree : DirTree Name) (node : List Name)
    (hparent : tree.kind node.dropLast = some .directory) : DirTree Name where
  kind := Function.update tree.kind node (some .directory)
  root := by
    by_cases hroot : [] = node
    · rw [hroot, Function.update_self]
    · rw [Function.update_of_ne hroot, tree.root]
  parent := by
    intro other hother
    by_cases habove : other.dropLast = node
    · rw [habove, Function.update_self]
    · rw [Function.update_of_ne habove]
      by_cases hsame : other = node
      · rw [hsame, hparent]
      · rw [Function.update_of_ne hsame] at hother
        exact tree.parent other hother

section
variable {tree old new : DirTree Name} {node base target : List Name} {front moves : List (Move Name)}
  {move : Move Name}

@[simp] theorem walk_append (tree : DirTree Name) (node : List Name) (front back : List (Move Name)) :
    tree.walk node (front ++ back) = (tree.walk node front).bind fun middle => tree.walk middle back := by
  induction front generalizing node with
  | nil => rfl
  | cons move front ih =>
    rw [List.cons_append, walk, walk]
    by_cases hdir : tree.kind node = some .directory
    · rw [if_pos hdir, if_pos hdir, ih]
    · rw [if_neg hdir, if_neg hdir, Option.bind_none]

theorem walk_concat (hwalk : tree.walk base front = some node)
    (hdir : tree.kind node = some .directory) (move : Move Name) :
    tree.walk base (front ++ [move]) = some (move.apply node) := by
  rw [walk_append, hwalk, Option.bind_some, walk, if_pos hdir, walk]

theorem walk_stay {count : Nat} (hwalk : tree.walk node (List.replicate count .stay) = some target) :
    target = node := by
  induction count with
  | zero => exact (Option.some.inj hwalk).symm
  | succ count ih =>
    rw [List.replicate_succ, walk, Option.ite_none_right_eq_some] at hwalk
    exact ih hwalk.2

theorem walk_parent (hwalk : tree.walk node moves = some target)
    (hparent : tree.kind node.dropLast = some .directory) :
    tree.kind target.dropLast = some .directory := by
  induction moves generalizing node with
  | nil =>
    cases hwalk
    exact hparent
  | cons move rest ih =>
    rw [walk, Option.ite_none_right_eq_some] at hwalk
    obtain ⟨hdir, hwalk⟩ := hwalk
    apply ih hwalk
    cases move with
    | stay => exact hparent
    | up => exact tree.parent _ (by simp [Move.apply, hparent])
    | down name => rw [Move.apply, List.dropLast_concat, hdir]

theorem walk_mono (hdirs : ∀ node, old.kind node = some .directory → new.kind node = some .directory)
    (hwalk : old.walk node moves = some target) : new.walk node moves = some target := by
  induction moves generalizing node with
  | nil => exact hwalk
  | cons move rest ih =>
    rw [walk, Option.ite_none_right_eq_some] at hwalk
    rw [walk, if_pos (hdirs node hwalk.1), ih hwalk.2]

/-- The moves lead to a directory of `new`, and led to it in `old` if it was there. -/
structure Reached (old new : DirTree Name) (base : List Name) (moves : List (Move Name))
    (node : List Name) : Prop where
  there : new.walk base moves = some node
  directory : new.kind node = some .directory
  before : old.kind node = some .directory → old.walk base moves = some node

theorem Reached.mono {newer : DirTree Name} (h : Reached old new base moves node)
    (hdirs : ∀ node, new.kind node = some .directory → newer.kind node = some .directory) :
    Reached old newer base moves node where
  there := walk_mono hdirs h.there
  directory := hdirs node h.directory
  before := h.before

theorem Reached.down (h : Reached old new base moves node) {name : Name}
    (hold : old.kind (node ++ [name]) ≠ none) :
    old.walk base (moves ++ [.down name]) = some (node ++ [name]) := by
  have hparent := old.parent _ hold
  rw [List.dropLast_concat] at hparent
  exact walk_concat (h.before hparent) hparent (.down name)

theorem Reached.concat (h : Reached old new base moves node) (hmove : move ≠ .up)
    (hdirectory : new.kind (move.apply node) = some .directory) :
    Reached old new base (moves ++ [move]) (move.apply node) where
  there := walk_concat h.there h.directory move
  directory := hdirectory
  before := by
    intro hold
    cases move with
    | stay => exact walk_concat (h.before hold) hold .stay
    | up => contradiction
    | down name =>
      rw [Move.apply] at hold
      exact h.down (by simp [hold])

end

end DirTree

end UdpFileProxy.Lib.Directories
