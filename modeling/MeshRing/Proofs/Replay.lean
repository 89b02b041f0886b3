import MeshRing.Proofs.Indexes
import MeshRing.Proofs.Outcome
import MeshRing.Snapshot.Replay

/-! What a replay stores is the ring of the snapshot's records. -/

namespace MeshRing

open Outcome

theorem Logged.value_foldlM {α β : Type} (f : β → α → Logged β) (b : β) (as : List α) :
    (as.foldlM f b).value = as.foldl (fun b a => (f b a).value) b := by
  induction as generalizing b with
  | nil => rfl
  | cons a as ih =>
      rw [List.foldlM_cons, value_bind, ih]
      rfl

namespace Snapshot

/-- The ring of the settings and the records of a snapshot. -/
def ring (s : Snapshot) : Ring :=
  .ofRecords s.settings s.segments.toArray s.triangles.toArray

theorem foldl_pushSegment (settings : Settings) (segments : Array Segment)
    (triangles : Array Triangle) (ss : List Segment) :
    ss.foldl (fun r s => (r.pushSegment s).value) (Ring.ofRecords settings segments triangles) =
      .ofRecords settings (segments ++ ss) triangles := by
  induction ss generalizing segments with
  | nil => simp
  | cons s ss ih => simp [Ring.pushSegment_ofRecords, ih]

theorem foldl_pushTriangle (settings : Settings) (segments : Array Segment)
    (triangles : Array Triangle) (ts : List Triangle) :
    ts.foldl (fun r t => (r.pushTriangle t).value) (Ring.ofRecords settings segments triangles) =
      .ofRecords settings segments (triangles ++ ts) := by
  induction ts generalizing triangles with
  | nil => simp
  | cons t ts ih => simp [Ring.pushTriangle_ofRecords, ih]

/-- All pushes together make the ring of the records. -/
theorem pushAll_value (s : Snapshot) : (s.pushAll { settings := s.settings }).value = s.ring := by
  rw [← Ring.ofRecords_empty, pushAll, Logged.value_bind, Logged.value_foldlM, Logged.value_foldlM,
    foldl_pushSegment, foldl_pushTriangle]
  simp [ring]

theorem replay_value (s : Snapshot) :
    s.replay.value = (do s.settings.check; s.checkPlaces; return s.ring) := by
  unfold replay Ring.ofSettings
  cases s.settings.check with
  | error f => rfl
  | ok _ =>
      rw [← pushAll_value]
      rfl

/-- A replay is refused for its settings or for a place that is not finite, and for nothing else. -/
theorem replay_eq_ok_iff {s : Snapshot} {r : Ring} :
    s.replay.value = .ok r ↔ s.settings.check = .ok () ∧ s.checkPlaces = .ok () ∧ r = s.ring := by
  rw [replay_value, check_bind_eq_ok_iff, check_bind_eq_ok_iff, pure_eq_ok_iff, @eq_comm _ r]

theorem checkPlaces_eq_ok_iff {s : Snapshot} :
    s.checkPlaces = .ok () ↔ ∀ place ∈ s.places, place.2.isFinite = true := by
  unfold checkPlaces
  induction s.places with
  | nil => simp [pure, Except.pure]
  | cons place places ih =>
      rw [List.forM, check_bind_eq_ok_iff, ih]
      simp [requireFinite]

end Snapshot

namespace Ring

/-- What loads is the ring of a snapshot with usable settings and finite places. -/
theorem load_eq_ok_iff {d : Datum} {r : Ring} :
    (load d).value = .ok r ↔ ∃ s, Snapshot.ofDatum d = .ok s ∧
      s.settings.check = .ok () ∧ s.checkPlaces = .ok () ∧ r = s.ring := by
  unfold load
  cases Snapshot.ofDatum d with
  | error f => simp
  | ok s =>
      simp only [Logged.value_bind, Logged.value_pure, Except.ok.injEq, exists_eq_left',
        ← Snapshot.replay_eq_ok_iff]
      exact mapError_eq_ok_iff

end Ring

end MeshRing
