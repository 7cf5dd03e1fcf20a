import BinTrace.Proofs.Cache.Contents
import Mathlib.Data.List.Chain
import Mathlib.Data.List.Nodup
import Mathlib.Data.List.Range

/-!
The ring of the ways of a set. Its links form one cycle, which runs through all ways in the order of
their last use. A way that is used is taken out of the cycle and put in again between the youngest
and the oldest way; so it comes to the end of the order, and the others keep theirs.
-/

namespace BinTrace.Cache

namespace LineSet

open KeyMap List

variable {s : LineSet} {ways p q x y : Nat}

/-- The links of two ways lead from the first to the second and back. -/
def Joined (s : LineSet) (ways x y : Nat) : Prop :=
  (s.link ways x).next = y ∧ (s.link ways y).prev = x

/-- The ways in the order of their last use. The links lead from each to the next one, and from the
last to the oldest. -/
structure Ring (s : LineSet) (ways : Nat) (order : List Nat) : Prop where
  perm : order.Perm (List.range ways)
  head?_eq : order.head? = some s.recent
  isChain : (order ++ [s.recent]).IsChain (s.Joined ways)

theorem Ring.of_eq {t : LineSet} {order : List Nat} (h : s.Ring ways order)
    (hrecent : t.recent = s.recent) (hlinks : t.links = s.links) : t.Ring ways order := by
  have hjoined : t.Joined ways = s.Joined ways := by
    funext x y
    rw [Joined, Joined, link, link, link, link, hlinks]
  exact ⟨h.perm, hrecent ▸ h.head?_eq, hjoined ▸ hrecent ▸ h.isChain⟩

theorem Ring.nodup {order : List Nat} (h : s.Ring ways order) : order.Nodup :=
  h.perm.nodup_iff.mpr List.nodup_range

theorem Ring.length_eq {order : List Nat} (h : s.Ring ways order) : order.length = ways :=
  h.perm.length_eq.trans List.length_range

/-- Links two ways with each other. -/
def bridge (s : LineSet) (ways x y : Nat) : LineSet := (s.setPrev ways y x).setNext ways x y

/-- At the start the ways are linked in the order of their numbers. -/
theorem ring_empty (hways : 0 < ways) : empty.Ring ways (List.range ways) := by
  obtain ⟨n, rfl⟩ := Nat.exists_eq_add_one_of_ne_zero hways.ne'
  refine ⟨.rfl, by rw [List.range_succ_eq_map]; rfl, List.isChain_append.mpr ⟨?_, ?_, ?_⟩⟩
  · refine (List.isChain_range_succ _ n).mpr fun m hm => ⟨?_, ?_⟩
    · exact Nat.mod_eq_of_lt (by omega)
    · show (m + 1 + (n + 1) - 1) % (n + 1) = m
      rw [show m + 1 + (n + 1) - 1 = m + (n + 1) by omega, Nat.add_mod_right]
      exact Nat.mod_eq_of_lt (by omega)
  · exact isChain_singleton _
  · intro x hx y hy
    rw [List.range_succ, List.getLast?_concat, Option.mem_some_iff] at hx
    rw [List.head?_cons, Option.mem_some_iff] at hy
    subst hx hy
    refine ⟨Nat.mod_self _, ?_⟩
    show (0 + (n + 1) - 1) % (n + 1) = n
    rw [Nat.zero_add, Nat.add_sub_cancel]
    exact Nat.mod_eq_of_lt (Nat.lt_succ_self n)

theorem link_setLink (s : LineSet) (w : Nat) (l : Link) :
    (s.setLink w l).link ways x = if x = w then l else s.link ways x := by
  rw [link, setLink, get?_insert, link]
  split <;> rfl

theorem next_setPrev (s : LineSet) (w p : Nat) :
    ((s.setPrev ways w p).link ways x).next = (s.link ways x).next := by
  rw [setPrev, link_setLink]
  split
  · rename_i hx
    rw [hx]
  · rfl

theorem prev_setPrev (s : LineSet) (w p : Nat) :
    ((s.setPrev ways w p).link ways x).prev = if x = w then p else (s.link ways x).prev := by
  rw [setPrev, link_setLink]
  split <;> rfl

theorem next_setNext (s : LineSet) (w n : Nat) :
    ((s.setNext ways w n).link ways x).next = if x = w then n else (s.link ways x).next := by
  rw [setNext, link_setLink]
  split <;> rfl

theorem prev_setNext (s : LineSet) (w n : Nat) :
    ((s.setNext ways w n).link ways x).prev = (s.link ways x).prev := by
  rw [setNext, link_setLink]
  split
  · rename_i hx
    rw [hx]
  · rfl

theorem next_bridge (s : LineSet) (p q : Nat) : ((s.bridge ways p q).link ways x).next =
    if x = p then q else (s.link ways x).next := by
  rw [bridge, next_setNext, next_setPrev]

theorem prev_bridge (s : LineSet) (p q : Nat) : ((s.bridge ways p q).link ways y).prev =
    if y = q then p else (s.link ways y).prev := by
  rw [bridge, prev_setNext, prev_setPrev]

theorem joined_bridge_self (s : LineSet) (ways p q : Nat) : (s.bridge ways p q).Joined ways p q :=
  ⟨by rw [next_bridge, if_pos rfl], by rw [prev_bridge, if_pos rfl]⟩

/-- In a chain every member but the last is linked forwards, and every one but the first back. -/
theorem isChain_imp_of_mem {R S : Nat → Nat → Prop} {l : List Nat} (h : l.IsChain R)
    (himp : ∀ x ∈ l.dropLast, ∀ y ∈ l.tail, R x y → S x y) : l.IsChain S := by
  rw [isChain_iff_forall₂] at h ⊢
  refine (forall₂_iff_zip.mpr ⟨h.length_eq, fun {x y} hxy => ?_⟩)
  have hmem := List.of_mem_zip hxy
  exact himp x hmem.1 y hmem.2 ((forall₂_iff_zip.mp h).2 hxy)

theorem isChain_bridge_of_notMem {l : List Nat} (h : l.IsChain (s.Joined ways))
    (hp : p ∉ l.dropLast) (hq : q ∉ l.tail) : l.IsChain ((s.bridge ways p q).Joined ways) := by
  refine isChain_imp_of_mem h fun x hx y hy hxy => ⟨?_, ?_⟩
  · rw [next_bridge, if_neg (ne_of_mem_of_not_mem hx hp), hxy.1]
  · rw [prev_bridge, if_neg (ne_of_mem_of_not_mem hy hq), hxy.2]

/-- Two chains become one, if the new links replace none of theirs. -/
theorem isChain_bridge {u v : List Nat} (hu : (u ++ [p]).IsChain (s.Joined ways))
    (hv : (q :: v).IsChain (s.Joined ways)) (hpu : p ∉ u) (hpv : p ∉ (q :: v).dropLast)
    (hqu : q ∉ (u ++ [p]).tail) (hqv : q ∉ v) :
    (u ++ p :: q :: v).IsChain ((s.bridge ways p q).Joined ways) := by
  refine isChain_append_cons_cons.mpr ⟨?_, joined_bridge_self s ways p q, ?_⟩
  · exact isChain_bridge_of_notMem hu (by rwa [dropLast_concat]) hqu
  · exact isChain_bridge_of_notMem hv hpv hqv

/-- The oldest way becomes the youngest if the ring is entered one way further on. -/
theorem Ring.advance {rest : List Nat} (h : s.Ring ways (s.recent :: rest)) :
    { s with recent := (s.link ways s.recent).next }.Ring ways (rest ++ [s.recent]) := by
  obtain ⟨next, after, hsplit⟩ : ∃ next after, rest ++ [s.recent] = next :: after :=
    List.exists_cons_of_ne_nil (by simp)
  have hchain := h.isChain
  rw [List.cons_append, hsplit, isChain_cons_cons, ← hsplit] at hchain
  obtain ⟨hfirst, hrest⟩ := hchain
  refine ⟨(List.perm_append_singleton _ _).trans h.perm, ?_, ?_⟩
  · rw [hsplit, hfirst.1]
    rfl
  · -- the way that was the oldest is linked with the one that is now
    rw [hfirst.1, List.append_assoc]
    exact isChain_append_cons_cons.mpr ⟨hrest, hfirst, isChain_singleton _⟩

/-- Taking a way out is one bridge over it, and putting it in behind the youngest is two. -/
theorem joined_moveToEnd {way last : Nat} {t : LineSet} (hrecent : s.recent ≠ way)
    (ht : t = s.bridge ways (s.link ways way).prev (s.link ways way).next)
    (hlast : (t.link ways s.recent).prev = last) (hway : last ≠ way) :
    (s.moveToEnd ways way).recent = s.recent ∧
      (s.moveToEnd ways way).Joined ways =
        ((t.bridge ways last way).bridge ways way s.recent).Joined ways := by
  have hmoved : s.moveToEnd ways way =
      ((t.setLink way ⟨last, s.recent⟩).setPrev ways s.recent way).setNext ways last way := by
    rw [moveToEnd, if_neg hrecent, ← hlast, ht]
    rfl
  rw [hmoved, ht]
  refine ⟨rfl, ?_⟩
  rw [← ht]
  have hnext (x : Nat) : (((t.setLink way ⟨last, s.recent⟩).setPrev ways s.recent way).setNext ways
      last way |>.link ways x).next =
        (((t.bridge ways last way).bridge ways way s.recent).link ways x).next := by
    rw [next_setNext, next_setPrev, link_setLink, next_bridge, next_bridge]
    by_cases hx : x = way
    · rw [if_pos hx, if_pos hx, if_neg (hx ▸ hway.symm)]
    · rw [if_neg hx, if_neg hx]
  have hprev (y : Nat) : (((t.setLink way ⟨last, s.recent⟩).setPrev ways s.recent way).setNext ways
      last way |>.link ways y).prev =
        (((t.bridge ways last way).bridge ways way s.recent).link ways y).prev := by
    rw [prev_setNext, prev_setPrev, link_setLink, prev_bridge, prev_bridge]
    by_cases hy : y = s.recent
    · rw [if_pos hy, if_pos hy]
    · rw [if_neg hy, if_neg hy]
      split <;> rfl
  funext x y
  rw [Joined, Joined, hnext, hprev]

/-- Any other way is taken out of its place and put behind the youngest. -/
theorem Ring.move {before after : List Nat} {way : Nat}
    (h : s.Ring ways (s.recent :: before ++ way :: after)) :
    (s.moveToEnd ways way).Ring ways (s.recent :: before ++ after ++ [way]) := by
  have hnodup := h.nodup
  rw [List.nodup_middle, List.nodup_cons] at hnodup
  obtain ⟨hway, hothers⟩ := hnodup
  have hrecent : s.recent ≠ way := fun heq => hway (by simp [heq])
  have hcircle : (s.recent :: before ++ after).Perm (before ++ (after ++ [s.recent])) := by
    rw [← List.append_assoc, List.cons_append]
    exact (List.perm_append_singleton _ _).symm
  -- the way in front of it and the way behind it
  obtain ⟨u, p, hu⟩ : ∃ u p, s.recent :: before = u ++ [p] :=
    ⟨_, _, (List.dropLast_append_getLast (List.cons_ne_nil _ _)).symm⟩
  obtain ⟨q, v, hv⟩ : ∃ q v, after ++ [s.recent] = q :: v := List.exists_cons_of_ne_nil (by simp)
  have hchain := h.isChain
  rw [List.append_assoc, hu, List.cons_append, hv, List.append_assoc, List.singleton_append,
    isChain_append_cons_cons, isChain_cons_cons] at hchain
  obtain ⟨hleft, hpw, hwq, hright⟩ := hchain
  have hclosed : (s.recent :: before ++ after ++ [s.recent]).IsChain
      ((s.bridge ways p q).Joined ways) := by
    have hcut := hothers
    rw [hu, List.append_assoc, List.nodup_append, List.singleton_append, List.nodup_cons] at hcut
    have hcut' := hcircle.nodup_iff.mp hothers
    rw [hv, List.nodup_middle, List.nodup_cons, List.mem_append, not_or] at hcut'
    rw [List.append_assoc, hv, hu, List.append_assoc, List.singleton_append]
    refine isChain_bridge hleft hright (fun hp => hcut.2.2 p hp p List.mem_cons_self rfl) ?_ ?_
      hcut'.1.2
    · rw [← hv, List.dropLast_concat]
      exact hcut.2.1.1
    · rw [← hu, List.tail_cons]
      exact hcut'.1.1
  -- the youngest of the others
  obtain ⟨w, last, hw⟩ : ∃ w last, s.recent :: before ++ after = w ++ [last] :=
    ⟨_, _, (List.dropLast_append_getLast (by simp)).symm⟩
  rw [hw] at hway hothers ⊢
  rw [hw, List.append_assoc, List.singleton_append, isChain_append_cons_cons] at hclosed
  obtain ⟨hinner, hlast, -⟩ := hclosed
  have hfirst : (w ++ [last]).head? = some s.recent := by rw [← hw]; rfl
  obtain ⟨hsame, hjoined⟩ := joined_moveToEnd hrecent (by rw [hpw.2, hwq.1]) hlast.2
    (ne_of_mem_of_not_mem (by simp) hway)
  have hput : (w ++ [last] ++ [way]).IsChain
      (((s.bridge ways p q).bridge ways last way).Joined ways) := by
    rw [List.append_assoc, List.singleton_append]
    refine isChain_bridge hinner (isChain_singleton way) ?_ (by simp) ?_ (by simp)
    · exact fun hl => (List.nodup_append.mp hothers).2.2 last hl last (by simp) rfl
    · exact fun hl => hway (List.mem_of_mem_tail hl)
  refine ⟨?_, ?_, ?_⟩
  · refine (List.perm_append_singleton _ _).trans ?_
    rw [← hw]
    exact List.perm_middle.symm.trans h.perm
  · rw [hsame, List.head?_append, hfirst]
    rfl
  · rw [hjoined, hsame, List.append_assoc, List.singleton_append]
    refine isChain_bridge hput (isChain_singleton s.recent) hway (by simp) ?_ (by simp)
    obtain ⟨rest, hrest⟩ := List.head?_eq_some_iff.mp hfirst
    rw [hrest, List.nodup_cons] at hothers
    rw [hrest, List.cons_append, List.tail_cons, List.mem_append, not_or, List.mem_singleton]
    exact ⟨hothers.1, hrecent⟩

/-- Using a way moves it to the end of the order. -/
theorem Ring.moveToEnd {order : List Nat} {way : Nat} (h : s.Ring ways order) (hway : way ∈ order) :
    (s.moveToEnd ways way).Ring ways (order.erase way ++ [way]) := by
  obtain ⟨rest, rfl⟩ := List.head?_eq_some_iff.mp h.head?_eq
  by_cases hrecent : s.recent = way
  · subst hrecent
    rw [List.erase_cons_head, LineSet.moveToEnd, if_pos rfl]
    exact h.advance
  · obtain ⟨before, after, rfl⟩ := List.append_of_mem
      (List.mem_of_ne_of_mem (Ne.symm hrecent) hway)
    have hnodup : (s.recent :: before ++ way :: after).Nodup := h.nodup
    rw [List.nodup_middle, List.nodup_cons] at hnodup
    have herase : (s.recent :: (before ++ way :: after)).erase way =
        s.recent :: before ++ after := by
      rw [← List.cons_append, List.erase_append_right _ fun hmem =>
        hnodup.1 (List.mem_append_left _ hmem), List.erase_cons_head]
    rw [herase]
    exact h.move

/-- Each way is linked with the one behind it in the order, and the youngest with the oldest. -/
theorem Ring.joined_getElem {order : List Nat} {i : Nat} (h : s.Ring ways order)
    (hx : order[i]? = some x) (hy : order[(i + 1) % ways]? = some y) : s.Joined ways x y := by
  have hlength := h.length_eq
  obtain ⟨hi, rfl⟩ := List.getElem?_eq_some_iff.mp hx
  have hchain := List.isChain_iff_getElem.mp h.isChain i (by simpa using hi)
  rw [List.getElem_append_left hi] at hchain
  convert hchain
  rcases Nat.lt_or_eq_of_le (Nat.succ_le_of_lt hi) with hlt | heq
  · rw [Nat.mod_eq_of_lt (hlength ▸ hlt)] at hy
    rw [List.getElem_append_left hlt]
    exact (List.getElem?_eq_some_iff.mp hy).2.symm
  · rw [← hlength, show i + 1 = order.length from heq, Nat.mod_self, ← List.head?_eq_getElem?,
      h.head?_eq] at hy
    rw [List.getElem_append_right heq.ge]
    simpa using hy.symm

theorem Ring.exists_getElem {order : List Nat} (h : s.Ring ways order) (hx : x < ways) :
    ∃ i < ways, order[i]? = some x := by
  have hmem : x ∈ order := h.perm.mem_iff.mpr (List.mem_range.mpr hx)
  obtain ⟨i, hi, rfl⟩ := List.getElem_of_mem hmem
  exact ⟨i, hi.trans_eq h.length_eq, List.getElem?_eq_getElem hi⟩

theorem Ring.getElem?_mod {order : List Nat} (h : s.Ring ways order) (hways : 0 < ways) (i : Nat) :
    ∃ y, order[i % ways]? = some y :=
  ⟨_, List.getElem?_eq_getElem ((Nat.mod_lt i hways).trans_eq h.length_eq.symm)⟩

/-- The links lead forwards and back again. -/
theorem Ring.inverse {order : List Nat} (h : s.Ring ways order) (hx : x < ways) :
    (s.link ways (s.link ways x).next).prev = x ∧ (s.link ways (s.link ways x).prev).next = x := by
  obtain ⟨i, hi, hget⟩ := h.exists_getElem hx
  have hways : 0 < ways := Nat.zero_lt_of_lt hx
  obtain ⟨y, hy⟩ := h.getElem?_mod hways (i + 1)
  obtain ⟨w, hw⟩ := h.getElem?_mod hways (i + ways - 1)
  have hround : ((i + ways - 1) % ways + 1) % ways = i := by
    rw [Nat.mod_add_mod, Nat.sub_add_cancel (by omega), Nat.add_mod_right, Nat.mod_eq_of_lt hi]
  obtain ⟨hnext, hback⟩ := h.joined_getElem hget hy
  obtain ⟨hforth, hprev⟩ := h.joined_getElem hw (hround.symm ▸ hget)
  exact ⟨hnext.symm ▸ hback, hprev.symm ▸ hforth⟩

theorem Ring.iterate_next {order : List Nat} {i : Nat} (h : s.Ring ways order)
    (hx : order[i]? = some x) (hi : i < ways) (n : Nat) :
    order[(i + n) % ways]? = some ((fun w => (s.link ways w).next)^[n] x) := by
  induction n with
  | zero => rwa [Nat.add_zero, Nat.mod_eq_of_lt hi]
  | succ n ih =>
      obtain ⟨y, hy⟩ := h.getElem?_mod (Nat.zero_lt_of_lt hi) ((i + n) % ways + 1)
      have hnext := (h.joined_getElem ih hy).1
      rw [Nat.mod_add_mod] at hy
      rw [← Nat.add_assoc, hy, Function.iterate_succ_apply', hnext]

/-- Following the links from any way leads to any other one. -/
theorem Ring.exists_iterate_next {order : List Nat} (h : s.Ring ways order) (hx : x < ways)
    (hy : y < ways) : ∃ n < ways, (fun w => (s.link ways w).next)^[n] x = y := by
  obtain ⟨i, hi, hix⟩ := h.exists_getElem hx
  obtain ⟨j, hj, hjy⟩ := h.exists_getElem hy
  refine ⟨(j + ways - i) % ways, Nat.mod_lt _ (Nat.zero_lt_of_lt hx), Option.some.inj ?_⟩
  rw [← h.iterate_next hix hi, Nat.add_mod_mod, Nat.add_sub_of_le (by omega), Nat.add_mod_right,
    Nat.mod_eq_of_lt hj, hjy]

end LineSet

end BinTrace.Cache
