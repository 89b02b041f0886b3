import MeshRing.Proofs.Numbers
import MeshRing.Proofs.Membership
import MeshRing.Proofs.Policies

/-! The answers of checked inserts, read off the stored records alone. -/

namespace MeshRing

open Outcome

/-! ## Checks of the record itself -/

theorem requireFinite_eq (n : Node) (p : Point) :
    requireFinite n p = if p.Escapes then .error (.nonFiniteCoordinate n p) else .ok () := by
  unfold requireFinite
  simp only [← Point.isFinite_eq_false_iff]
  cases p.isFinite <;> rfl

theorem Segment.check_eq (s : Segment) : s.check =
    if s.n0 = s.n1 then .error (.degenerateSegment s.n0)
    else if s.p0.Escapes then .error (.nonFiniteCoordinate s.n0 s.p0)
    else if s.p1.Escapes then .error (.nonFiniteCoordinate s.n1 s.p1)
    else .ok () := by
  rw [check, requireFinite_eq, requireFinite_eq]
  by_cases hn : s.n0 = s.n1
  · simp only [hn, ite_true]
    rfl
  · by_cases h0 : s.p0.Escapes <;> simp only [hn, h0, ite_true, ite_false] <;> rfl

theorem Triangle.check_eq (t : Triangle) : t.check =
    if t.n0 = t.n1 ∨ t.n0 = t.n2 ∨ t.n1 = t.n2 then .error (.degenerateTriangle t.n0 t.n1 t.n2)
    else if t.apex.Escapes then .error (.nonFiniteCoordinate t.n2 t.apex)
    else .ok () := by
  rw [check, requireFinite_eq]
  by_cases hn : t.n0 = t.n1 ∨ t.n0 = t.n2 ∨ t.n1 = t.n2
  · simp only [hn, ite_true]
    rfl
  · simp only [hn, ite_false]

/-! ## Records over the same nodes -/

namespace Ring

/-- A stored segment joins the nodes, in one direction or the other. -/
def StoresBetween (r : Ring) (m n : Node) : Prop :=
  ∃ s ∈ r.segments, (s.n0 = m ∧ s.n1 = n) ∨ (s.n0 = n ∧ s.n1 = m)

/-- The nodes of a stored triangle make up the set. -/
def StoresOver (r : Ring) (nodes : Finset Node) : Prop :=
  ∃ t ∈ r.triangles, t.nodes.toFinset = nodes

instance (r : Ring) (m n : Node) : Decidable (r.StoresBetween m n) := by
  unfold StoresBetween
  infer_instance

instance (r : Ring) (nodes : Finset Node) : Decidable (r.StoresOver nodes) := by
  unfold StoresOver
  infer_instance

theorem repeats_insertSegment_iff {r : Ring} {s : Segment} :
    r.Repeats (.insertSegment s) ↔ r.StoresBetween s.n0 s.n1 := by
  simp only [Repeats, StoresBetween, Segment.nodes, Node.perm_pair_iff]

end Ring

/-- Three different nodes are the nodes of a triangle in some order once they are so as a set. -/
theorem Triangle.nodes_perm_iff {s t : Triangle} (h : t.nodes.Nodup) :
    s.nodes.Perm t.nodes ↔ s.nodes.toFinset = t.nodes.toFinset := by
  constructor
  · exact List.toFinset_eq_of_perm _ _
  · intro heq
    have hsubset : t.nodes ⊆ s.nodes := fun n hn =>
      List.mem_toFinset.mp (heq ▸ List.mem_toFinset.mpr hn)
    exact ((List.subperm_of_subset h hsubset).perm_of_length_le (Nat.le_refl 3)).symm

theorem Ring.repeats_insertTriangle_iff {r : Ring} {t : Triangle} (h : t.nodes.Nodup) :
    r.Repeats (.insertTriangle t) ↔ r.StoresOver t.nodes.toFinset := by
  simp only [Repeats, StoresOver, Triangle.nodes_perm_iff h]

namespace Ring

/-! ## Answer, effect and log -/

section

variable {r : Ring} {e : Edit}

/-- Keys stand for the stored records, so the policy settles repetitions of them. -/
theorem Indexed.settle_eq (h : r.Indexed) : r.settle e =
    if r.settings.duplicates = .error ∧ r.Repeats e then .error e.duplicate
    else .ok ((r.store e).after
      (if r.settings.duplicates = .warn ∧ r.Repeats e then [.keptDuplicate e.duplicate]
        else [])) := by
  by_cases hrepeats : r.Repeats e
  · rw [settle_of_meets ((h.meets_iff e).mpr hrepeats)]
    cases r.settings.duplicates <;> simp only [hrepeats] <;> rfl
  · have hmeets : r.meets e = false := Bool.eq_false_iff.mpr (mt (h.meets_iff e).mp hrepeats)
    simp only [settle_of_not_meets hmeets, hrepeats, and_false, ite_false]
    rfl

/-- After the checks of the record comes the one of the policy. -/
theorem Indexed.answer_eq (h : r.Indexed) : (r.apply e).answer = e.check >>= fun _ =>
    if r.settings.duplicates = .error ∧ r.Repeats e then .error e.duplicate else .ok () := by
  rw [apply_eq, h.settle_eq]
  cases e.check with
  | error f => rfl
  | ok _ =>
      rw [ok_bind, ok_bind]
      split <;> rfl

theorem Indexed.apply_of_accepted (h : r.Indexed) (ha : (r.apply e).answer = .ok ()) :
    r.apply e = ⟨(r.store e).value,
      (if r.settings.duplicates = .warn ∧ r.Repeats e then [.keptDuplicate e.duplicate] else []) ++
        (r.store e).events, .ok ()⟩ := by
  have hanswer := h.answer_eq (e := e)
  rw [ha] at hanswer
  obtain ⟨hcheck, hkept⟩ := check_bind_eq_ok_iff.mp hanswer.symm
  rw [apply_eq, hcheck, ok_bind, h.settle_eq]
  split
  · rename_i hrefused
    rw [if_pos hrefused] at hkept
    cases hkept
  · rfl

/-- A refused edit leaves the ring as it was and logs nothing. -/
theorem apply_of_refused {f : RingFault} (ha : (r.apply e).answer = .error f) :
    r.apply e = ⟨r, [], .error f⟩ := by
  rcases r.apply_cases e with ⟨_, he⟩ | ⟨g, he⟩
  · rw [he] at ha
    cases ha
  · rw [he] at ha ⊢
    obtain rfl : g = f := Except.error.inj ha
    rfl

end

/-- What checked inserts make of any argument, in terms of the stored records. -/
structure InsertSpec (r : Ring) : Prop where
  segment_answer : ∀ s, (r.apply (.insertSegment s)).answer =
    if s.n0 = s.n1 then .error (.degenerateSegment s.n0)
    else if s.p0.Escapes then .error (.nonFiniteCoordinate s.n0 s.p0)
    else if s.p1.Escapes then .error (.nonFiniteCoordinate s.n1 s.p1)
    else if r.settings.duplicates = .error ∧ r.StoresBetween s.n0 s.n1 then
      .error (.duplicateSegment s.n0 s.n1)
    else .ok ()
  triangle_answer : ∀ t, (r.apply (.insertTriangle t)).answer =
    if t.n0 = t.n1 ∨ t.n0 = t.n2 ∨ t.n1 = t.n2 then .error (.degenerateTriangle t.n0 t.n1 t.n2)
    else if t.apex.Escapes then .error (.nonFiniteCoordinate t.n2 t.apex)
    else if r.settings.duplicates = .error ∧ r.StoresOver {t.n0, t.n1, t.n2} then
      .error (.duplicateTriangle t.n0 t.n1 t.n2)
    else .ok ()
  /-- A stored segment leaves the ring that an unchecked push leaves, after a warning if need be. -/
  segment_stored : ∀ s, (r.apply (.insertSegment s)).answer = .ok () →
    (r.apply (.insertSegment s)).ring = (r.pushSegment s).value ∧
      (r.apply (.insertSegment s)).events =
        (if r.settings.duplicates = .warn ∧ r.StoresBetween s.n0 s.n1 then
          [.keptDuplicate (.duplicateSegment s.n0 s.n1)] else []) ++
        [.storedSegment s.n0 s.n1 (r.segments.size + 1)]
  triangle_stored : ∀ t, (r.apply (.insertTriangle t)).answer = .ok () →
    (r.apply (.insertTriangle t)).ring = (r.pushTriangle t).value ∧
      (r.apply (.insertTriangle t)).events =
        (if r.settings.duplicates = .warn ∧ r.StoresOver {t.n0, t.n1, t.n2} then
          [.keptDuplicate (.duplicateTriangle t.n0 t.n1 t.n2)] else []) ++
        [.storedTriangle t.n0 t.n1 t.n2 (r.triangles.size + 1)]
  levels : ∀ e, (r.apply e).answer = .ok () → (r.apply e).events.map Event.level =
    (if r.settings.duplicates = .warn ∧ r.Repeats e then ["WARN"] else []) ++ ["TRACE"]
  refused : ∀ e f, (r.apply e).answer = .error f →
    (r.apply e).ring = r ∧ (r.apply e).events = []

end Ring

/-- Keys and stored records agree in a reachable ring, so its checked inserts can be told
from the records. -/
theorem Reachable.insert_spec {r : Ring} (h : Reachable r) : r.InsertSpec := by
  have hr := h.indexed
  have hnodes (t : Triangle) : t.nodes.toFinset = {t.n0, t.n1, t.n2} := by
    simp [Triangle.nodes]
  exact {
    segment_answer s := by
      rw [hr.answer_eq, Edit.check, Segment.check_eq]
      simp only [ite_error_bind, ok_bind, Ring.repeats_insertSegment_iff]
      rfl
    triangle_answer t := by
      rw [hr.answer_eq, Edit.check, Triangle.check_eq]
      simp only [ite_error_bind, ok_bind]
      by_cases hn : t.n0 = t.n1 ∨ t.n0 = t.n2 ∨ t.n1 = t.n2
      · simp only [hn, ite_true]
      · have hnodup : t.nodes.Nodup := by simpa [Triangle.nodes, and_assoc] using hn
        simp only [hn, ite_false, Ring.repeats_insertTriangle_iff hnodup, hnodes]
        rfl
    segment_stored s hs := by
      rw [hr.apply_of_accepted hs]
      simp only [Ring.repeats_insertSegment_iff]
      exact ⟨rfl, rfl⟩
    triangle_stored t ht := by
      have hcheck := (check_bind_eq_ok_iff.mp (hr.answer_eq.symm.trans ht)).1
      have hnodup := (Triangle.check_eq_ok_iff.mp hcheck).1
      rw [hr.apply_of_accepted ht]
      simp only [Ring.repeats_insertTriangle_iff hnodup, hnodes]
      exact ⟨rfl, rfl⟩
    levels e he := by
      have hpush : (r.store e).events.map Event.level = ["TRACE"] := by cases e <;> rfl
      rw [hr.apply_of_accepted he, List.map_append, hpush]
      split <;> rfl
    refused e f he := by
      rw [Ring.apply_of_refused he]
      exact ⟨rfl, rfl⟩ }

/-- A reversed segment is kept with a warning, and one whose second place is NaN is refused. -/
theorem Reachable.insert_spec_reversed :
    let p : Point := ⟨⟨0⟩, ⟨0⟩⟩
    let r := Ring.empty.run [.insertSegment ⟨⟨1⟩, ⟨2⟩, p, p⟩]
    let reversed : Segment := ⟨⟨2⟩, ⟨1⟩, p, p⟩
    let unplaced : Segment := ⟨⟨2⟩, ⟨3⟩, p, ⟨⟨0⟩, ⟨0x7ff8000000000001⟩⟩⟩
    Reachable r ∧ r.InsertSpec ∧
      (r.apply (.insertSegment reversed)).answer = .ok () ∧
      (r.apply (.insertSegment reversed)).events =
        [.keptDuplicate (.duplicateSegment ⟨2⟩ ⟨1⟩), .storedSegment ⟨2⟩ ⟨1⟩ 2] ∧
      (r.apply (.insertSegment unplaced)).answer =
        .error (.nonFiniteCoordinate ⟨3⟩ unplaced.p1) := by
  intro p r reversed unplaced
  have h : Reachable r := Reachable.empty.run _
  exact ⟨h, Reachable.insert_spec h, by decide +kernel, by decide +kernel, by decide +kernel⟩

end MeshRing
