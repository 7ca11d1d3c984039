import Comp304.Library.Dict
import Mathlib.Tactic.TypeStar

/-! What `main` of `plot.py` computes from the records in `tree` before it draws
them: the numbering of the vertices, the edges between them, and the eldest child
of each process. Subscripts of a dictionary can raise a `KeyError`. -/
namespace Comp304.Psvis
open Library

/-- The members of a record that `main` uses. -/
structure Node where
  ppid : Int
  pid : Int
  startTime : Int
  deriving DecidableEq, Repr

structure KeyError where
  key : Int
  deriving DecidableEq, Repr

/-- `d[key]` -/
def subscript (d : Dict Int ν) (key : Int) : Except KeyError ν :=
  match d.get? key with
  | some value => .ok value
  | none => .error ⟨key⟩

/-! ### Vertices and edges -/

/-- One round of the loop that fills `nodes`. -/
def number (nodes : Dict Int Int) (node : Node) : Dict Int Int :=
  if node.pid ∉ nodes.values then nodes.assign node.pid nodes.length else nodes

/-- `nodes` -/
def nodesOf (tree : List Node) : Dict Int Int := tree.foldl number .empty

/-- `nodes_` -/
def inverted (nodes : Dict Int Int) : Dict Int Int :=
  nodes.entries.foldl (fun nodes_ (k, v) => nodes_.assign v k) .empty

/-- `add_list` -/
def addList (tree : List Node) : Except KeyError (List (Int × Int)) :=
  tree.foldlM (fun edges node =>
    if node.ppid ≠ -1 then do
      let parent ← subscript (nodesOf tree) node.ppid
      let child ← subscript (nodesOf tree) node.pid
      return edges ++ [(parent, child)]
    else return edges) []

/-- `G.vs["label"]` -/
def labels (tree : List Node) : Except KeyError (List Int) :=
  (List.range tree.length).mapM fun (i : Nat) => subscript (inverted (nodesOf tree)) (i : Int)

/-! ### Eldest children -/

/-- `start_times` -/
def startTimes (tree : List Node) : Dict Int Int :=
  tree.foldl (fun times node => times.assign node.pid node.startTime) .empty

/-- `eldest_childs` before the second loop. -/
def noChilds (tree : List Node) : Dict Int Int :=
  tree.foldl (fun eldest node => eldest.assign node.pid (-1)) .empty

/-- One round of the second loop. -/
def eldestStep (times eldest : Dict Int Int) (node : Node) : Except KeyError (Dict Int Int) :=
  if node.ppid ≠ -1 then do
    let curEd ← subscript eldest node.ppid
    if curEd = -1 then return eldest.assign node.ppid node.pid
    else
      let curSt ← subscript times node.ppid
      let start ← subscript times node.pid
      if start < curSt then return eldest.assign node.ppid node.pid else return eldest
  else return eldest

/-- `eldest_childs` -/
def eldestChilds (tree : List Node) : Except KeyError (Dict Int Int) :=
  tree.foldlM (eldestStep (startTimes tree)) (noChilds tree)

end Comp304.Psvis
