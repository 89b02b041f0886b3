import MeshRing.Proofs.Edits
import MeshRing.Proofs.Replay

/-! A ring starts empty or loaded and then takes edits, whether they are accepted or refused. -/

namespace MeshRing

/-- The rings that a caller can come by. A clone is the same value and needs no case. -/
inductive Reachable : Ring → Prop
  | empty : Reachable .empty
  | withCapacity (segments triangles : Nat) : Reachable (.withCapacity segments triangles)
  | ofSettings {s : Settings} {r : Ring} : Ring.ofSettings s = .ok r → Reachable r
  | load {d : Datum} {r : Ring} : (Ring.load d).value = .ok r → Reachable r
  | apply {r : Ring} (e : Edit) : Reachable r → Reachable (r.apply e).ring

namespace Ring

theorem ofSettings_eq_ok_iff {s : Settings} {r : Ring} :
    ofSettings s = .ok r ↔ s.check = .ok () ∧ r = .ofRecords s #[] #[] := by
  rw [ofRecords_empty]
  unfold ofSettings
  cases s.check <;> simp [bind, Except.bind, pure, Except.pure, eq_comm]

@[simp] theorem settings_store (r : Ring) (e : Edit) :
    (r.store e).value.settings = r.settings := by
  cases e <;> rfl

theorem Indexed.store {r : Ring} (h : r.Indexed) (e : Edit) : (r.store e).value.Indexed := by
  cases e with
  | pushSegment s => exact h.pushSegment s
  | pushTriangle t => exact h.pushTriangle t
  | insertSegment s => exact h.pushSegment s
  | insertTriangle t => exact h.pushTriangle t

end Ring

namespace Reachable

variable {r : Ring}

/-- What holds of every ring right after it is made, and stays true as records are stored, holds of
every reachable ring. -/
theorem invariant {P : Ring → Prop}
    (hstart : ∀ settings segments triangles, settings.check = .ok () →
      P (.ofRecords settings segments triangles))
    (hstore : ∀ r e, P r → P (r.store e).value) (h : Reachable r) : P r := by
  induction h with
  | empty => exact hstart {} #[] #[] rfl
  | withCapacity segments triangles => exact hstart {} #[] #[] rfl
  | ofSettings h =>
      obtain ⟨hs, rfl⟩ := Ring.ofSettings_eq_ok_iff.mp h
      exact hstart _ _ _ hs
  | load h =>
      obtain ⟨s, _, hs, _, rfl⟩ := Ring.load_eq_ok_iff.mp h
      exact hstart _ _ _ hs
  | apply e _ ih => exact Ring.apply_preserves hstore ih e

theorem settings_check (h : Reachable r) : r.settings.check = .ok () :=
  h.invariant (P := fun r => r.settings.check = .ok ()) (fun _ _ _ hs => hs)
    (fun r e hr => by rwa [Ring.settings_store])

theorem indexed (h : Reachable r) : r.Indexed :=
  h.invariant (fun _ _ _ _ => Ring.indexed_ofRecords _ _ _) (fun _ e hr => hr.store e)

theorem run (h : Reachable r) (es : List Edit) : Reachable (r.run es) := by
  induction es generalizing r with
  | nil => exact h
  | cons e es ih => exact ih (h.apply e)

end Reachable

end MeshRing
