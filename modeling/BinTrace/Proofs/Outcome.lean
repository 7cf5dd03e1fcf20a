import Mathlib.Data.List.Forall2

/-!
Taking runs apart: what a program that can fail has done if it succeeded, for the ways in which
such programs are put together.
-/

namespace BinTrace.Outcome

variable {ε α β : Type}

theorem bind_eq_ok {x : Except ε α} {f : α → Except ε β} {b : β} :
    x >>= f = .ok b ↔ ∃ a, x = .ok a ∧ f a = .ok b := by
  cases x with
  | error e => simp [bind, Except.bind]
  | ok a => simp [bind, Except.bind]

theorem seq_eq_ok {x : Except ε Unit} {f : Unit → Except ε β} {b : β} :
    x >>= f = .ok b ↔ x = .ok () ∧ f () = .ok b := by
  rw [bind_eq_ok]
  exact ⟨fun ⟨_, hx, hf⟩ => ⟨hx, hf⟩, fun ⟨hx, hf⟩ => ⟨(), hx, hf⟩⟩

theorem map_eq_ok {x : Except ε α} {f : α → β} {b : β} :
    x.map f = .ok b ↔ ∃ a, x = .ok a ∧ f a = b := by
  cases x with
  | error e => simp [Except.map]
  | ok a => simp [Except.map]

/-- From one state a program ends in another, whether it succeeds or fails. -/
def Leaves {σ : Type} (x : EStateM ε σ α) (s s' : σ) : Prop :=
  (∃ a, x.run s = .ok a s') ∨ ∃ e, x.run s = .error e s'

theorem leaves_bind {σ : Type} {x : EStateM ε σ α} {f : α → EStateM ε σ β} {s s' : σ} :
    Leaves (x >>= f) s s' ↔
      (∃ a t, x.run s = .ok a t ∧ Leaves (f a) t s') ∨ ∃ e, x.run s = .error e s' := by
  simp only [Leaves, EStateM.run_bind]
  cases x.run s with
  | ok a t => simp
  | error e t => simp

theorem mapError_eq_ok {ε' : Type} {x : Except ε α} {f : ε → ε'} {a : α} :
    x.mapError f = .ok a ↔ x = .ok a := by
  cases x <;> simp [Except.mapError]

/-- A check in front of the rest of a program. -/
theorem guard_eq_ok {p : Prop} [Decidable p] {e : ε} {f : α → Except ε β}
    {x : Except ε β} {b : β} :
    (if p then throw e >>= f else x) = .ok b ↔ ¬p ∧ x = .ok b := by
  split
  · rename_i h
    simp [h, bind, Except.bind, throw, throwThe, MonadExceptOf.throw]
  · rename_i h
    simp [h]

theorem forM_eq_ok {f : α → Except ε Unit} {as : List α} :
    forM as f = .ok () ↔ ∀ a ∈ as, f a = .ok () := by
  induction as with
  | nil => simp [pure, Except.pure]
  | cons a rest ih =>
      rw [List.forM_cons, seq_eq_ok, List.forall_mem_cons, ih]

theorem mapM_cons_eq_ok {f : α → Except ε β} {a : α} {as : List α} {bs : List β} :
    (a :: as).mapM f = .ok bs ↔ ∃ b rest, f a = .ok b ∧ as.mapM f = .ok rest ∧ bs = b :: rest := by
  rw [List.mapM_cons, bind_eq_ok]
  constructor
  · rintro ⟨b, hb, h⟩
    obtain ⟨rest, hrest, h⟩ := bind_eq_ok.mp h
    exact ⟨b, rest, hb, hrest, (Except.ok.inj h).symm⟩
  · rintro ⟨b, rest, hb, hrest, rfl⟩
    exact ⟨b, hb, bind_eq_ok.mpr ⟨rest, hrest, rfl⟩⟩

theorem forall₂_of_mapM {f : α → Except ε β} {as : List α} {bs : List β} (h : as.mapM f = .ok bs) :
    List.Forall₂ (fun a b => f a = .ok b) as bs := by
  induction as generalizing bs with
  | nil =>
      cases h
      exact .nil
  | cons a rest ih =>
      obtain ⟨b, bs, hb, hrest, rfl⟩ := mapM_cons_eq_ok.mp h
      exact .cons hb (ih hrest)

/-- What the related elements of two lists agree on. -/
theorem map_eq_of_forall₂ {γ : Type} {R : α → β → Prop} {f : α → γ} {g : β → γ} {as : List α}
    {bs : List β} (h : List.Forall₂ R as bs) (hR : ∀ a b, R a b → f a = g b) :
    as.map f = bs.map g := by
  rw [← List.forall₂_eq_eq_eq, List.forall₂_map_left_iff, List.forall₂_map_right_iff]
  exact h.imp hR

theorem exists_mem_of_forall₂ {R : α → β → Prop} {as : List α} {bs : List β}
    (h : List.Forall₂ R as bs) : (∀ a ∈ as, ∃ b ∈ bs, R a b) ∧ ∀ b ∈ bs, ∃ a ∈ as, R a b := by
  induction h with
  | nil => simp
  | @cons a b as bs hab _ ih =>
      obtain ⟨hleft, hright⟩ := ih
      refine ⟨List.forall_mem_cons.mpr ⟨⟨b, List.mem_cons_self, hab⟩, fun c hc => ?_⟩,
        List.forall_mem_cons.mpr ⟨⟨a, List.mem_cons_self, hab⟩, fun c hc => ?_⟩⟩
      · obtain ⟨d, hd, hcd⟩ := hleft c hc
        exact ⟨d, List.mem_cons_of_mem _ hd, hcd⟩
      · obtain ⟨d, hd, hdc⟩ := hright c hc
        exact ⟨d, List.mem_cons_of_mem _ hd, hdc⟩

/-- What holds between the elements of one list holds between those that they are related to. -/
theorem pairwise_of_forall₂ {R : α → β → Prop} {S : α → α → Prop} {T : β → β → Prop}
    {as : List α} {bs : List β} (h : List.Forall₂ R as bs)
    (hR : ∀ a b c d, R a c → R b d → S a b → T c d) (hS : as.Pairwise S) : bs.Pairwise T := by
  induction h with
  | nil => exact .nil
  | @cons a c as bs hac hrest ih =>
      obtain ⟨ha, has⟩ := List.pairwise_cons.mp hS
      refine List.pairwise_cons.mpr ⟨fun d hd => ?_, ih has⟩
      obtain ⟨b, hb, hbd⟩ := (exists_mem_of_forall₂ hrest).2 d hd
      exact hR a b c d hac hbd (ha b hb)

end BinTrace.Outcome
