import MeshRing.Audited
import MeshRing.Proofs.Reachable

/-! The audit passes exactly on rings with valid settings and the indexes of their records. -/

namespace MeshRing

open Outcome

namespace Ring

/-- The audit finds nothing exactly in rings with valid settings and the indexes
of their records. -/
theorem audit_eq_ok_iff {r : Ring} :
    r.audit = .ok () ↔ r.settings.check = .ok () ∧ r.Indexed := by
  simp only [audit, check_bind_eq_ok_iff, ite_throw_bind_eq_ok_iff, ite_throw_eq_ok_iff,
    pure_eq_ok_iff, ne_eq, Decidable.not_not, and_true]
  constructor
  · rintro ⟨hs, ends, apexes, segmentKeys, triangleKeys⟩
    exact ⟨hs, ⟨ends, apexes, segmentKeys, triangleKeys⟩⟩
  · rintro ⟨hs, h⟩
    exact ⟨hs, h.ends, h.apexes, h.segmentKeys, h.triangleKeys⟩

theorem Indexed.auditLastSegment {r : Ring} (h : r.Indexed) {s : Segment}
    (hs : r.segments.back? = some s) : r.auditLastSegment = .ok () := by
  have hm : s ∈ r.segments := Array.mem_of_back? hs
  have hn : s.nodes.all r.ends.contains = true := by
    rw [List.all_eq_true, h.ends]
    intro n hn
    exact mem_endsOf.mpr ⟨s, hm, hn⟩
  have hk : r.segmentKeys.contains s.key = true := by
    rw [h.segmentKeys]
    exact mem_keysOfSegments.mpr ⟨s, hm, .refl _⟩
  simp [Ring.auditLastSegment, hs, hn, hk, h.size_segmentKeys_le]

theorem Indexed.auditLastTriangle {r : Ring} (h : r.Indexed) {t : Triangle}
    (ht : r.triangles.back? = some t) : r.auditLastTriangle = .ok () := by
  have hm : t ∈ r.triangles := Array.mem_of_back? ht
  have hn : r.apexes.contains t.n2 = true := by
    rw [h.apexes]
    exact mem_apexesOf.mpr ⟨t, hm, rfl⟩
  have hk : r.triangleKeys.contains t.key = true := by
    rw [h.triangleKeys]
    exact mem_keysOfTriangles.mpr ⟨t, hm, .refl _⟩
  simp [Ring.auditLastTriangle, ht, hn, hk, h.size_triangleKeys_le]

/-! ## Audited operations -/

theorem auditInsert_eq_ok {operation : String} {audit : Ring → Except RingFault Unit}
    {o : Except RingFault (Logged Ring)} (h : ∀ x, o = .ok x → audit x.value = .ok ()) :
    auditInsert operation audit o = .ok o := by
  cases o with
  | error f => rfl
  | ok x => simp [auditInsert, Audited.pass, h x rfl]

theorem Indexed.auditedInsertSegment {r : Ring} (h : r.Indexed) (s : Segment) :
    r.auditedInsertSegment s = .ok (r.insertSegment s) := by
  apply auditInsert_eq_ok
  intro x hx
  rw [insertSegment_value hx]
  exact (h.pushSegment s).auditLastSegment Array.back?_push

theorem Indexed.auditedInsertTriangle {r : Ring} (h : r.Indexed) (t : Triangle) :
    r.auditedInsertTriangle t = .ok (r.insertTriangle t) := by
  apply auditInsert_eq_ok
  intro x hx
  rw [insertTriangle_value hx]
  exact (h.pushTriangle t).auditLastTriangle Array.back?_push

/-- Edits keep a ring indexed, so audited edits of an indexed ring do not stop. -/
theorem Indexed.auditedApply {r : Ring} (h : r.Indexed) (e : Edit) :
    r.auditedApply e = .ok (r.apply e) := by
  cases e with
  | pushSegment s => rfl
  | pushTriangle t => rfl
  | insertSegment s =>
      rw [Ring.auditedApply, h.auditedInsertSegment]
      rfl
  | insertTriangle t =>
      rw [Ring.auditedApply, h.auditedInsertTriangle]
      rfl

/-- A load hands out indexed rings with valid settings only, so its audit passes on any tree. -/
theorem auditedLoad_eq_ok (d : Datum) : auditedLoad d = .ok (load d) := by
  unfold auditedLoad
  cases hl : (load d).value with
  | error f => rfl
  | ok r =>
      have hr : Reachable r := .load hl
      simp [Audited.pass, audit_eq_ok_iff.mpr ⟨hr.settings_check, hr.indexed⟩]

/-- The audit finds nothing in the ring, and no audited operation on it stops. -/
structure AuditSpec (r : Ring) : Prop where
  audit : r.audit = .ok ()
  settings : r.settings.check = .ok ()
  indexed : r.Indexed
  segmentKeys_le : r.segmentKeys.size ≤ r.segments.size
  triangleKeys_le : r.triangleKeys.size ≤ r.triangles.size
  apply : ∀ e, r.auditedApply e = .ok (r.apply e)
  load : ∀ d, auditedLoad d = .ok (load d)

end Ring

/-- Whatever was stored, refused or loaded on the way, every audit of a reachable ring passes. -/
theorem Reachable.audits_pass {r : Ring} (h : Reachable r) : r.AuditSpec where
  audit := Ring.audit_eq_ok_iff.mpr ⟨h.settings_check, h.indexed⟩
  settings := h.settings_check
  indexed := h.indexed
  segmentKeys_le := h.indexed.size_segmentKeys_le
  triangleKeys_le := h.indexed.size_triangleKeys_le
  apply := h.indexed.auditedApply
  load := Ring.auditedLoad_eq_ok

/-- A loop gives its node two places, one of them NaN; it is refused by the checked insert, and a
triangle is stored twice. -/
theorem Reachable.audits_pass_loop :
    let nan : Point := ⟨⟨0x7ff8000000000001⟩, ⟨0⟩⟩
    let loop : Segment := ⟨⟨7⟩, ⟨7⟩, nan, ⟨⟨0⟩, ⟨0⟩⟩⟩
    let triangle : Triangle := ⟨⟨7⟩, ⟨8⟩, ⟨9⟩, ⟨⟨0⟩, ⟨0⟩⟩⟩
    let r := Ring.empty.run
      [.pushSegment loop, .insertSegment loop, .insertTriangle triangle, .insertTriangle triangle]
    Reachable r ∧ r.AuditSpec :=
  have h := Reachable.empty.run _
  ⟨h, Reachable.audits_pass h⟩

end MeshRing
