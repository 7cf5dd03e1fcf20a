import BinTrace.Proofs.Flow.Reach

/-!
Natural loops. An edge leads back from a tail to a head that dominates it, and the loop of the edge
is what reaches the tail around the head. The head dominates the whole loop, and of two loops with
different heads that have a node in common to which the entry leads, one contains the other.
-/

namespace BinTrace

variable {E : Nat → Nat → Prop} {a b c d entry h k t u x : Nat}

namespace Around

theorem trans (hab : Around E a d b) (hbc : Around E b d c) : Around E a d c := by
  induction hbc with
  | entry _ => exact hab
  | step _ hedge hne ih => exact ih.step hedge hne

theorem cons (hedge : E a b) (hne : d ≠ a) (hbc : Around E b d c) (hne' : d ≠ b) :
    Around E a d c :=
  Around.trans (.step (.entry hne) hedge hne') hbc

theorem start_ne (hab : Around E a d b) : d ≠ a := by
  induction hab with
  | entry hne => exact hne
  | step _ _ _ ih => exact ih

/-- Either the path does not meet `x`, or a part of it begins there. -/
theorem of_ne_or_part (hab : Around E a d b) (x : Nat) : Around E a x b ∨ Around E x d b := by
  induction hab with
  | entry hne =>
      by_cases hx : x = a
      · rw [hx]
        exact .inr (.entry hne)
      · exact .inl (.entry hx)
  | @step v w _ hedge hne ih =>
      by_cases hx : x = w
      · rw [hx]
        exact .inr (.entry hne)
      · exact ih.imp (fun hv => hv.step hedge hx) fun hv => hv.step hedge hne

/-- A set that contains the end of the path, and with a node on it the nodes before, contains its
start. -/
theorem start_mem_of_closed {P : Nat → Prop} (hab : Around E a d b) (hb : P b)
    (hclosed : ∀ v w, P w → w ≠ d → E v w → P v) : P a := by
  induction hab with
  | entry _ => exact hb
  | @step v w _ hedge hne ih => exact ih (hclosed v w hb hne.symm hedge)

end Around

theorem around_iff_exists_path : Around E a d b ↔ ∃ path, IsPath E a b path ∧ d ∉ path := by
  constructor
  · exact Around.exists_path
  · rintro ⟨path, hpath, hd⟩
    by_contra haround
    exact hd (dominates_iff.mpr haround path hpath)

/-- What reaches `b` around a dominator of `b` is dominated by it, too. -/
theorem Dominates.of_around (hdom : Dominates E entry d b) (hab : Around E a d b) :
    Dominates E entry d a :=
  dominates_iff.mpr fun hea => dominates_iff.mp hdom (hea.trans hab)

/-- Of two nodes that dominate each other neither dominates a node to which the entry leads. -/
theorem not_dominates_of_dominates (hne : h ≠ k) (hhk : Dominates E entry h k)
    (hkh : Dominates E entry k h) (hb : Reaches E entry b) : ¬ Dominates E entry h b := by
  rw [dominates_iff] at hhk hkh ⊢
  -- Whatever is reached is reached around both.
  suffices hboth : Around E entry h b ∧ Around E entry k b from not_not.mpr hboth.1
  refine hb.mem_of_closed (P := fun v => Around E entry h v ∧ Around E entry k v) ?_ ?_
  · exact ⟨.entry fun heq => hkh (heq ▸ .entry (heq ▸ hne.symm)),
      .entry fun heq => hhk (heq ▸ .entry (heq ▸ hne))⟩
  · rintro v w ⟨hh, hk⟩ hedge
    refine ⟨hh.step hedge fun heq => hkh ?_, hk.step hedge fun heq => hhk ?_⟩
    · exact heq ▸ hk.step hedge (heq ▸ hne.symm)
    · exact heq ▸ hh.step hedge (heq ▸ hne)

/-- On a path that meets two nodes, one of them is met for the last time behind the other. -/
theorem around_or_around (hne : h ≠ k) (hb : Reaches E entry b) :
    Around E entry h b ∨ Around E h k b ∨ Around E k h b := by
  refine hb.mem_of_closed
    (P := fun v => Around E entry h v ∨ Around E h k v ∨ Around E k h v) ?_ fun v w hv hedge => ?_
  · by_cases hh : h = entry
    · exact .inr (.inl (hh ▸ .entry (hh ▸ hne.symm)))
    · exact .inl (.entry hh)
  · by_cases hh : h = w
    · exact .inr (.inl (hh ▸ .entry hne.symm))
    · by_cases hk : k = w
      · exact .inr (.inr (hk ▸ .entry hne))
      · exact hv.imp (·.step hedge hh) (.imp (·.step hedge hk) (·.step hedge hh))

/-- The nodes of the loop of an edge from `tail` back to `head`. -/
def InLoop (E : Nat → Nat → Prop) (tail head b : Nat) : Prop :=
  b = head ∨ ∃ path, IsPath E b tail path ∧ head ∉ path

theorem inLoop_iff : InLoop E t h b ↔ b = h ∨ Around E b h t := by
  rw [InLoop, around_iff_exists_path]

theorem dominates_of_inLoop (hdom : Dominates E entry h t) (hb : InLoop E t h b) :
    Dominates E entry h b := by
  rcases inLoop_iff.mp hb with rfl | haround
  · exact dominates_iff.mpr fun hself => hself.ne rfl
  · exact hdom.of_around haround

/-- If the head of one loop leads around the head of another one to a node of both, then the one loop
lies inside of the other. -/
theorem inLoop_of_around (hne : h ≠ k) (hedge : E t h) (hdom : Dominates E entry h t)
    (hdom' : Dominates E entry k u) (hb : Reaches E entry b) (hbh : InLoop E t h b)
    (hbk : InLoop E u k b) (haround : Around E h k b) (hx : InLoop E t h x) : InLoop E u k x := by
  have hbu : Around E b k u := (inLoop_iff.mp hbk).resolve_left haround.ne.symm
  have hhu : Around E h k u := haround.trans hbu
  rw [inLoop_iff]
  rcases inLoop_iff.mp hx with rfl | hxt
  · exact .inr hhu
  · right
    rcases hxt.of_ne_or_part k with hxt | hkt
    · exact (hxt.step hedge haround.start_ne).trans hhu
    · -- The heads would dominate each other.
      exact absurd (dominates_of_inLoop hdom hbh)
        (not_dominates_of_dominates hne (hdom.of_around hkt) (hdom'.of_around hhu) hb)

theorem inLoop_subset_or_subset (hne : h ≠ k) (hedge : E t h) (hedge' : E u k)
    (hdom : Dominates E entry h t) (hdom' : Dominates E entry k u) (hb : Reaches E entry b)
    (hbh : InLoop E t h b) (hbk : InLoop E u k b) :
    (∀ x, InLoop E t h x → InLoop E u k x) ∨ ∀ x, InLoop E u k x → InLoop E t h x := by
  obtain haround | haround | haround := around_or_around hne hb
  · exact absurd haround (dominates_iff.mp (dominates_of_inLoop hdom hbh))
  · exact .inl fun x => inLoop_of_around hne hedge hdom hdom' hb hbh hbk haround
  · exact .inr fun x => inLoop_of_around hne.symm hedge' hdom' hdom hb hbk hbh haround

end BinTrace
