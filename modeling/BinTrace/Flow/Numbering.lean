import BinTrace.Flow.Reach

/-!
A depth-first walk that numbers the nodes of a graph in the order in which it comes to them, and
records from where it came.
-/

namespace BinTrace

/-- The numbers that a walk has given so far. -/
structure Numbering (n : Nat) where
  number : Vector (Option Nat) n := Vector.replicate n none
  /-- The nodes in the order of their numbers. -/
  nodes : Array Nat := #[]
  /-- From where the walk came to each node. -/
  parent : Vector (Option Nat) n := Vector.replicate n none

namespace Numbering

variable {n : Nat}

def number? (t : Numbering n) (v : Nat) : Option Nat := t.number[v]?.join

def parent? (t : Numbering n) (v : Nat) : Option Nat := t.parent[v]?.join

def nodeAt (t : Numbering n) (i : Nat) : Nat := t.nodes.getD i 0

/-- Gives the next number to a node. -/
def visit (t : Numbering n) (v : Nat) (source : Option Nat) : Numbering n where
  number := t.number.setIfInBounds v (some t.nodes.size)
  nodes := t.nodes.push v
  parent := t.parent.setIfInBounds v source

def unnumbered (t : Numbering n) : Nat := t.number.count none

theorem unnumbered_visit_lt {t : Numbering n} {v : Nat} {source : Option Nat} (hv : v < n)
    (h : t.number? v = none) : (t.visit v source).unnumbered < t.unnumbered := by
  have hv' : t.number[v] = none := by simpa [number?, hv] using h
  have hpos : 0 < t.number.count none :=
    Vector.count_pos_iff.mpr (Vector.mem_of_getElem hv')
  have hset : t.number.setIfInBounds v (some t.nodes.size) =
      t.number.set v (some t.nodes.size) := by
    ext i hi
    rw [Vector.getElem_setIfInBounds, Vector.getElem_set]
  have hold : (t.number[v] == none) = true := by rw [hv']; rfl
  have hnew : (some t.nodes.size == (none : Option Nat)) = false := rfl
  rw [unnumbered, visit, hset, Vector.count_set, if_pos hold, hnew]
  exact Nat.sub_lt hpos Nat.one_pos

/-- What an edge from `v` leads to that has no number, to wait with `v`. -/
def fresh (edges : Edges) (t : Numbering edges.size) (v : Nat) : List (Nat × Option Nat) :=
  ((edges.getD v []).filter fun s => (t.number? s).isNone).map fun s => (s, some v)

set_option linter.unusedVariables false in
/-- Numbers what can be reached from nodes that wait. Each of these waits with the node from which
the walk would come to it. -/
def walk (edges : Edges) (t : Numbering edges.size) (work : List (Nat × Option Nat)) :
    Numbering edges.size :=
  match work with
  | [] => t
  | (v, source) :: rest =>
    if h : v < edges.size ∧ t.number? v = none then
      let next := t.visit v source
      walk edges next (fresh edges next v ++ rest)
    else walk edges t rest
termination_by (t.unnumbered, work.length)
decreasing_by
  · exact Prod.Lex.left _ _ (unnumbered_visit_lt h.1 h.2)
  · exact Prod.Lex.right _ (Nat.lt_succ_self _)

/-- The numbers for what can be reached from the entry, which gets the first one. -/
def ofEntry (edges : Edges) (entry : Nat) : Numbering edges.size := walk edges {} [(entry, none)]

end Numbering

end BinTrace
