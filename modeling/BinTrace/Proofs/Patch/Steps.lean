import BinTrace.Patch.Point
import BinTrace.Proofs.Outcome

/-!
What the steps of a point do when they succeed: each leaves the point as it was apart from its
progress, and the progress tells what the step has found.
-/

namespace BinTrace

open Outcome

variable {w : Width} {f : Function} {l : Liveness} {p q : PatchPoint}

namespace PatchPoint

/-- The point with another progress. -/
def withProgress (p : PatchPoint) (progress : PatchProgress) : PatchPoint := { p with progress }

theorem findProtection_ok {protection : Protection} (h : p.findProtection w f l = .ok protection) :
    p.protectionFor w (l.liveAt p.address p.location) = .ok protection := by
  unfold findProtection at h
  split at h
  · exact (guard_eq_ok.mp h).2
  · cases h

theorem protectionFor_ok {live : RegSet} {protection : Protection}
    (h : p.protectionFor w live = .ok protection) :
    ∃ skip, protection = { Protection.covering live (p.atRisk w live) with skipRedZone := skip } := by
  unfold protectionFor at h
  dsimp only at h
  split at h
  · split at h
    · exact ⟨true, (Except.ok.inj h).symm⟩
    · split at h
      · cases h
      · exact ⟨_, (Except.ok.inj h).symm⟩
  · exact ⟨_, (Except.ok.inj h).symm⟩

theorem analyze_ok (h : (analyze w f l).run p = .ok () q) :
    ∃ protection, p.protectionFor w (l.liveAt p.address p.location) = .ok protection ∧
      q = p.withProgress (.analyzed protection) := by
  unfold analyze at h
  rw [EStateM.run_bind, EStateM.run_get] at h
  dsimp only at h
  split at h
  · split at h
    · rename_i protection hfound
      cases h
      exact ⟨protection, findProtection_ok hfound, rfl⟩
    · cases h
  · cases h

theorem analyze_error {e : PatchError} (h : (analyze w f l).run p = .error e q) : q = p := by
  unfold analyze at h
  rw [EStateM.run_bind, EStateM.run_get] at h
  dsimp only at h
  split at h
  · split at h
    · cases h
    · cases h
      rfl
  · cases h
    rfl

/-- What a detour consists of. -/
theorem buildDetour_ok {protection : Protection} {d : Detour}
    (h : p.buildDetour w f protection = .ok d) :
    f.patchStart? p.address Encode.jumpSize p.location = some d.site ∧
      (∃ b, (f.graph.bind fun g => (g.blockContaining? d.site).bind g.block?) = some b ∧
        d.displaced = displacedAt b d.site) ∧
      d.protection = protection ∧
      Trampoline.build w protection p.code (relocated p.location d.displaced)
        (resume? d.site d.displaced (relocated p.location d.displaced)) = .ok d.trampoline := by
  unfold buildDetour at h
  split at h
  · rename_i site hsite
    split at h
    · rename_i b hb
      obtain ⟨t, ht, hd⟩ := bind_eq_ok.mp h
      obtain rfl := (Except.ok.inj hd).symm
      exact ⟨hsite, ⟨b, hb, rfl⟩, rfl, mapError_eq_ok.mp ht⟩
    · cases h
  · cases h

theorem generate_ok (h : (generate w f).run p = .ok () q) :
    ∃ protection d, p.progress = .analyzed protection ∧ p.buildDetour w f protection = .ok d ∧
      q = p.withProgress (.generated d) := by
  unfold generate at h
  rw [EStateM.run_bind, EStateM.run_get] at h
  dsimp only at h
  split at h
  · rename_i protection hprogress
    split at h
    · rename_i d hd
      cases h
      exact ⟨protection, d, hprogress, hd, rfl⟩
    · cases h
  · cases h

theorem generate_error {e : PatchError} (h : (generate w f).run p = .error e q) : q = p := by
  unfold generate at h
  rw [EStateM.run_bind, EStateM.run_get] at h
  dsimp only at h
  split at h
  · split at h
    · cases h
    · cases h
      rfl
  · cases h
    rfl

end PatchPoint

namespace Trampoline

/-- A trampoline is put together from four parts. -/
theorem build_ok {protection : Protection} {c : InsertedCode} {relocated : List Instruction}
    {resume : Option Nat} {t : Trampoline} (h : build w protection c relocated resume = .ok t) :
    ∃ enter inserted leave tail, protection.enter w = .ok enter ∧ c.emit w = .ok inserted ∧
      protection.leave w = .ok leave ∧ Trampoline.tail relocated resume = .ok tail ∧
      t = ofEmissions (enter.map .free ++ inserted ++ leave.map .free ++ tail) := by
  obtain ⟨enter, henter, h⟩ := bind_eq_ok.mp h
  obtain ⟨inserted, hinserted, h⟩ := bind_eq_ok.mp h
  obtain ⟨leave, hleave, h⟩ := bind_eq_ok.mp h
  obtain ⟨tail, htail, h⟩ := bind_eq_ok.mp h
  exact ⟨enter, inserted, leave, tail, henter, hinserted, hleave, htail, (Except.ok.inj h).symm⟩

end Trampoline

end BinTrace
