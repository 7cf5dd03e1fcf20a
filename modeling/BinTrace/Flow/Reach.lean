/-!
Reachability in graphs. A graph is given by its edges: the nodes are the positions of an array,
which holds the successors of each.
-/

namespace BinTrace

abbrev Edges := Array (List Nat)

/-- A set of the nodes below a bound. -/
abbrev Marks (bound : Nat) := Vector Bool bound

namespace Marks

def none (bound : Nat) : Marks bound := Vector.replicate bound false

def contains {bound : Nat} (seen : Marks bound) (v : Nat) : Bool := seen[v]?.getD false

def insert {bound : Nat} (seen : Marks bound) (v : Nat) : Marks bound := seen.setIfInBounds v true

/-- The nodes of the set in increasing order. -/
def toList {bound : Nat} (seen : Marks bound) : List Nat := (List.range bound).filter seen.contains

def missing {bound : Nat} (seen : Marks bound) : Nat := seen.count false

theorem missing_insert_lt {bound v : Nat} {seen : Marks bound} (hv : v < bound)
    (hs : seen.contains v = false) : (seen.insert v).missing < seen.missing := by
  have hv' : seen[v] = false := by simpa [contains, hv] using hs
  have h : 0 < seen.count false := Vector.count_pos_iff.mpr (Vector.mem_of_getElem hv')
  have he : seen.insert v = seen.set v true := by
    ext i hi
    rw [insert, Vector.getElem_setIfInBounds, Vector.getElem_set]
  have hn : (seen[v] == false) = true := by rw [hv']; rfl
  have ht : (true == false) = false := rfl
  rw [missing, missing, he, Vector.count_set, if_pos hn, ht]
  exact Nat.sub_lt h Nat.one_pos

end Marks

namespace Reach

set_option linter.unusedVariables false in
/-- Adds to `seen` all nodes to which edges lead from the nodes in `work`, through nodes that have
not been seen. -/
def collect (edges : Edges) (seen : Marks edges.size) (work : List Nat) : Marks edges.size :=
  match work with
  | [] => seen
  | v :: rest =>
    if h : v < edges.size ∧ seen.contains v = false then
      collect edges (seen.insert v) (edges.getD v [] ++ rest)
    else collect edges seen rest
termination_by (seen.missing, work.length)
decreasing_by
  · exact Prod.Lex.left _ _ (Marks.missing_insert_lt h.1 h.2)
  · exact Prod.Lex.right _ (Nat.lt_succ_self _)

/-- The nodes that can be reached from `start`, itself included. -/
def reachable (edges : Edges) (start : Nat) : Marks edges.size :=
  collect edges (Marks.none edges.size) [start]

end Reach

end BinTrace
