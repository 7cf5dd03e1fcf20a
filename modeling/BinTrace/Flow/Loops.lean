import BinTrace.Flow.Dominators

/-!
Natural loops. A depth-first walk from the entry finds the edges that lead back to a block on the
walk's path; each whose target dominates its source makes a loop.
-/

namespace BinTrace.FlowGraph

/-- The path of a depth-first walk, deepest block first, each with the edges that are left. -/
abbrev WalkPath := List (Nat × List Nat)

/-- Edges that are left on a path, and its blocks. -/
def WalkPath.load (path : WalkPath) : Nat := (path.map fun step => step.2.length + 1).sum

set_option linter.unusedVariables false in
/-- The edges that lead back to a block on the path, in the order in which the walk meets them. -/
def backEdges (edges : Edges) (seen : Marks edges.size) (path : WalkPath) : List (Nat × Nat) :=
  match hp : path with
  | [] => []
  | (_, []) :: rest => backEdges edges seen rest
  | (v, s :: left) :: rest =>
    if h : s < edges.size ∧ seen.contains s = false then
      backEdges edges (seen.insert s) ((s, edges.getD s []) :: (v, left) :: rest)
    else
      let others := backEdges edges seen ((v, left) :: rest)
      if s = v || rest.any (fun step => step.1 = s) then (v, s) :: others else others
termination_by (seen.missing, WalkPath.load path)
decreasing_by
  · exact Prod.Lex.right _ (by simp [WalkPath.load])
  · exact Prod.Lex.left _ _ (Marks.missing_insert_lt h.1 h.2)
  · exact Prod.Lex.right _ (by simp [WalkPath.load])

/-- The loop of an edge that leads back: the head, and what reaches the tail around it. -/
def loopOf (preds : Edges) (tail head : Nat) : Loop :=
  let around := Reach.collect preds ((Marks.none preds.size).insert head) [tail]
  { head, tail, blocks := around.toList }

def setLoops (g : FlowGraph) : FlowGraph :=
  let g := g.setDominators
  match g.entryBlock? with
  | none => { g with loops := [] }
  | some entry =>
    let edges := g.edges
    let preds := g.backwardEdges
    let idoms := g.idoms
    let back := backEdges edges ((Marks.none edges.size).insert entry) [(entry, edges.getD entry [])]
    { g with
      loops := (back.filter fun e => (dominatesBy idoms e.2 e.1).getD false).map fun e =>
        loopOf preds e.1 e.2 }

end BinTrace.FlowGraph
