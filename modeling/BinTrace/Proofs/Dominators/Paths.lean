import Mathlib.Data.List.Chain

/-!
Paths in a graph, and what it is for a node to dominate another: all paths from the entry to the
other lead through it. A path that leads around a node grows by one edge at a time.
-/

namespace BinTrace

/-- Nodes from `a` to `b`, each of which has an edge to the next one. -/
structure IsPath (E : Nat → Nat → Prop) (a b : Nat) (path : List Nat) : Prop where
  head_eq : path.head? = some a
  last_eq : path.getLast? = some b
  chain : path.IsChain E

def Reaches (E : Nat → Nat → Prop) (a b : Nat) : Prop := ∃ path, IsPath E a b path

def Dominates (E : Nat → Nat → Prop) (entry a b : Nat) : Prop :=
  ∀ path, IsPath E entry b path → a ∈ path

def StrictlyDominates (E : Nat → Nat → Prop) (entry a b : Nat) : Prop :=
  a ≠ b ∧ Dominates E entry a b

/-- Some path leads from the entry around `d`. -/
inductive Around (E : Nat → Nat → Prop) (entry d : Nat) : Nat → Prop
  | entry (hne : d ≠ entry) : Around E entry d entry
  | step {x y : Nat} (hx : Around E entry d x) (hedge : E x y) (hne : d ≠ y) : Around E entry d y

variable {E : Nat → Nat → Prop} {entry a b d : Nat}

theorem Around.ne (h : Around E entry d b) : d ≠ b := by
  cases h with
  | entry hne => exact hne
  | step _ _ hne => exact hne

theorem IsPath.concat {path : List Nat} (h : IsPath E entry a path) (hedge : E a b) :
    IsPath E entry b (path ++ [b]) := by
  refine ⟨?_, by simp, ?_⟩
  · rw [List.head?_append, h.head_eq, Option.some_or]
  · refine List.isChain_append.mpr ⟨h.chain, .singleton _, fun u hu v hv => ?_⟩
    rw [h.last_eq] at hu
    cases hu
    cases hv
    exact hedge

theorem Around.exists_path (h : Around E entry d b) :
    ∃ path, IsPath E entry b path ∧ d ∉ path := by
  induction h with
  | entry hne => exact ⟨[entry], ⟨rfl, rfl, .singleton _⟩, by simpa using hne⟩
  | @step x y _ hedge hne ih =>
      obtain ⟨path, hpath, hd⟩ := ih
      exact ⟨path ++ [y], hpath.concat hedge, by simp [hd, hne]⟩

theorem around_of_isChain {x : Nat} {rest : List Nat} (hx : Around E entry d x)
    (hchain : (x :: rest).IsChain E) (hd : d ∉ rest) (hlast : (x :: rest).getLast? = some b) :
    Around E entry d b := by
  induction rest generalizing x with
  | nil =>
      cases hlast
      exact hx
  | cons y rest ih =>
      obtain ⟨hedge, hrest⟩ := List.isChain_cons_cons.mp hchain
      rw [List.mem_cons, not_or] at hd
      obtain ⟨hy, hd⟩ := hd
      exact ih (hx.step hedge hy) hrest hd (by rwa [List.getLast?_cons_cons] at hlast)

/-- A node that is not dominated can be reached around the other one. -/
theorem dominates_iff : Dominates E entry a b ↔ ¬ Around E entry a b := by
  constructor
  · intro h haround
    obtain ⟨path, hpath, ha⟩ := haround.exists_path
    exact ha (h path hpath)
  · intro h path hpath
    by_contra ha
    cases path with
    | nil => cases hpath.head_eq
    | cons x rest =>
        cases hpath.head_eq
        rw [List.mem_cons, not_or] at ha
        exact h (around_of_isChain (.entry ha.1) hpath.chain ha.2 hpath.last_eq)

/-- On a path around `a` either `d` is avoided too, or it is reached around `a`. -/
theorem Around.of_ne (h : Around E entry a b) (d : Nat) : Around E entry d b ∨ Around E entry a d := by
  induction h with
  | entry hne =>
      by_cases hd : d = entry
      · rw [hd]
        exact .inr (.entry hne)
      · exact .inl (.entry hd)
  | @step x y hx hedge hne ih =>
      rcases ih with hdx | hda
      · by_cases hd : d = y
        · rw [hd]
          exact .inr (hx.step hedge hne)
        · exact .inl (hdx.step hedge hd)
      · exact .inr hda

end BinTrace
