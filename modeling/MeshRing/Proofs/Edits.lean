import MeshRing.Proofs.Outcome
import MeshRing.Ring.Edit

/-! # The anatomy of an edit -/

namespace MeshRing

open Outcome

/-- What a checked insert demands of a segment, whatever the ring holds. -/
def Segment.check (s : Segment) : Except RingFault Unit := do
  if s.n0 = s.n1 then throw (.degenerateSegment s.n0)
  requireFinite s.n0 s.p0
  requireFinite s.n1 s.p1

/-- What a checked insert demands of a triangle, whatever the ring holds. -/
def Triangle.check (t : Triangle) : Except RingFault Unit := do
  if t.n0 = t.n1 ∨ t.n0 = t.n2 ∨ t.n1 = t.n2 then throw (.degenerateTriangle t.n0 t.n1 t.n2)
  requireFinite t.n2 t.apex

theorem requireFinite_eq_ok_iff {n : Node} {p : Point} :
    requireFinite n p = .ok () ↔ p.isFinite = true := by
  unfold requireFinite
  cases p.isFinite <;> simp

theorem Segment.check_eq_ok_iff {s : Segment} :
    s.check = .ok () ↔ s.n0 ≠ s.n1 ∧ s.p0.isFinite = true ∧ s.p1.isFinite = true := by
  rw [check, ite_throw_bind_eq_ok_iff, check_bind_eq_ok_iff, requireFinite_eq_ok_iff,
    requireFinite_eq_ok_iff]

theorem Triangle.check_eq_ok_iff {t : Triangle} :
    t.check = .ok () ↔ t.nodes.Nodup ∧ t.apex.isFinite = true := by
  rw [check, ite_throw_bind_eq_ok_iff, requireFinite_eq_ok_iff]
  simp [nodes, and_assoc]

namespace Edit

/-- What the edit demands of its record; pushes demand nothing. -/
def check : Edit → Except RingFault Unit
  | .pushSegment _ | .pushTriangle _ => .ok ()
  | .insertSegment s => s.check
  | .insertTriangle t => t.check

/-- The fault of the edit when its record is a duplicate. -/
def duplicate : Edit → RingFault
  | .pushSegment s | .insertSegment s => .duplicateSegment s.n0 s.n1
  | .pushTriangle t | .insertTriangle t => .duplicateTriangle t.n0 t.n1 t.n2

def segment? : Edit → Option Segment
  | .pushSegment s | .insertSegment s => some s
  | .pushTriangle _ | .insertTriangle _ => none

def triangle? : Edit → Option Triangle
  | .pushSegment _ | .insertSegment _ => none
  | .pushTriangle t | .insertTriangle t => some t

end Edit

theorem requireFinite_cases (n : Node) (p : Point) :
    requireFinite n p = .ok () ∨ requireFinite n p = .error (.nonFiniteCoordinate n p) := by
  unfold requireFinite
  split
  · exact .inl rfl
  · exact .inr rfl

/-- The checks of a record find it degenerate or a coordinate not finite, and nothing else. -/
theorem Edit.check_cases (e : Edit) :
    e.check = .ok () ∨ (∃ n, e.check = .error (.degenerateSegment n)) ∨
      (∃ n0 n1 n2, e.check = .error (.degenerateTriangle n0 n1 n2)) ∨
      ∃ n p, e.check = .error (.nonFiniteCoordinate n p) := by
  cases e with
  | pushSegment s => exact .inl rfl
  | pushTriangle t => exact .inl rfl
  | insertSegment s =>
      by_cases h : s.n0 = s.n1
      · have hs : s.check = .error (.degenerateSegment s.n0) := by
          simp only [Segment.check, h, ite_true]
          rfl
        exact .inr (.inl ⟨_, hs⟩)
      · simp only [check, Segment.check, h, ite_false]
        rcases requireFinite_cases s.n0 s.p0 with h0 | h0
        · rw [h0]
          rcases requireFinite_cases s.n1 s.p1 with h1 | h1
          · exact .inl h1
          · exact .inr (.inr (.inr ⟨_, _, h1⟩))
        · rw [h0]
          exact .inr (.inr (.inr ⟨_, _, rfl⟩))
  | insertTriangle t =>
      by_cases h : t.n0 = t.n1 ∨ t.n0 = t.n2 ∨ t.n1 = t.n2
      · have ht : t.check = .error (.degenerateTriangle t.n0 t.n1 t.n2) := by
          simp only [Triangle.check, h, ite_true]
          rfl
        exact .inr (.inr (.inl ⟨_, _, _, ht⟩))
      · simp only [check, Triangle.check, h, ite_false]
        rcases requireFinite_cases t.n2 t.apex with h2 | h2
        · exact .inl h2
        · exact .inr (.inr (.inr ⟨_, _, h2⟩))

namespace Ring

/-- Stores the record of an edit unchecked. -/
def store (r : Ring) : Edit → Logged Ring
  | .pushSegment s | .insertSegment s => r.pushSegment s
  | .pushTriangle t | .insertTriangle t => r.pushTriangle t

/-- The edit is a checked insert whose key the ring has. -/
def meets (r : Ring) : Edit → Bool
  | .pushSegment _ | .pushTriangle _ => false
  | .insertSegment s => r.joins s.n0 s.n1
  | .insertTriangle t => r.spans t.n0 t.n1 t.n2

/-- What becomes of an edit that passes its own checks: the policy settles a duplicate. -/
def settle (r : Ring) (e : Edit) : Except RingFault (Logged Ring) := do
  let warnings ← if r.meets e then r.settings.duplicates.settle e.duplicate else pure []
  return (r.store e).after warnings

theorem settle_of_not_meets {r : Ring} {e : Edit} (h : r.meets e = false) :
    r.settle e = .ok (r.store e) := by
  rw [settle, h]
  rfl

theorem settle_of_meets {r : Ring} {e : Edit} (h : r.meets e = true) :
    r.settle e = (r.settings.duplicates.settle e.duplicate).map (r.store e).after := by
  rw [settle, h]
  rfl

theorem settle_cases (r : Ring) (e : Edit) :
    (∃ warnings, r.settle e = .ok ((r.store e).after warnings)) ∨ ∃ f, r.settle e = .error f := by
  cases hm : r.meets e with
  | false => exact .inl ⟨[], settle_of_not_meets hm⟩
  | true =>
      rw [settle_of_meets hm]
      cases r.settings.duplicates.settle e.duplicate with
      | error f => exact .inr ⟨f, rfl⟩
      | ok warnings => exact .inl ⟨warnings, rfl⟩

theorem settle_value {r : Ring} {e : Edit} {x : Logged Ring} (h : r.settle e = .ok x) :
    x.value = (r.store e).value := by
  rcases r.settle_cases e with ⟨_, hs⟩ | ⟨_, hs⟩
  · rw [hs] at h
    rw [← Except.ok.inj h]
    rfl
  · rw [hs] at h
    cases h

theorem insertSegment_eq (r : Ring) (s : Segment) :
    r.insertSegment s = s.check >>= fun _ => r.settle (.insertSegment s) := by
  unfold insertSegment Segment.check
  by_cases h : s.n0 = s.n1
  · simp only [h, ite_true]
    rfl
  · simp only [h, ite_false, pure_bind, bind_assoc]
    rfl

theorem insertTriangle_eq (r : Ring) (t : Triangle) :
    r.insertTriangle t = t.check >>= fun _ => r.settle (.insertTriangle t) := by
  unfold insertTriangle Triangle.check
  by_cases h : t.n0 = t.n1 ∨ t.n0 = t.n2 ∨ t.n1 = t.n2
  · simp only [h, ite_true]
    rfl
  · simp only [h, ite_false, pure_bind]
    rfl

theorem insertSegment_value {r : Ring} {s : Segment} {x : Logged Ring}
    (h : r.insertSegment s = .ok x) : x.value = (r.pushSegment s).value := by
  rw [insertSegment_eq] at h
  exact settle_value (check_bind_eq_ok_iff.mp h).2

theorem insertTriangle_value {r : Ring} {t : Triangle} {x : Logged Ring}
    (h : r.insertTriangle t = .ok x) : x.value = (r.pushTriangle t).value := by
  rw [insertTriangle_eq] at h
  exact settle_value (check_bind_eq_ok_iff.mp h).2

/-- Every edit is refused for its record alone (`Edit.check`), then settled by the policy
(`Ring.settle`), and a refusal leaves the ring and logs nothing. -/
theorem apply_eq (r : Ring) (e : Edit) :
    r.apply e = .ofInsert r (e.check >>= fun _ => r.settle e) := by
  cases e with
  | pushSegment s => rfl
  | pushTriangle t => rfl
  | insertSegment s => exact congrArg (Step.ofInsert r) (r.insertSegment_eq s)
  | insertTriangle t => exact congrArg (Step.ofInsert r) (r.insertTriangle_eq t)

theorem apply_of_check_error {r : Ring} {e : Edit} {f : RingFault} (h : e.check = .error f) :
    r.apply e = ⟨r, [], .error f⟩ := by
  rw [apply_eq, h]
  rfl

theorem apply_of_not_meets {r : Ring} {e : Edit} (h : e.check = .ok ()) (hm : r.meets e = false) :
    r.apply e = .stored (r.store e) := by
  rw [apply_eq, h, ok_bind, settle_of_not_meets hm]
  rfl

theorem apply_of_meets {r : Ring} {e : Edit} (h : e.check = .ok ()) (hm : r.meets e = true) :
    r.apply e =
      .ofInsert r ((r.settings.duplicates.settle e.duplicate).map (r.store e).after) := by
  rw [apply_eq, h, ok_bind, settle_of_meets hm]

/-- An edit either stores its record, reporting success, or changes nothing. -/
theorem apply_cases (r : Ring) (e : Edit) :
    (∃ events, r.apply e = ⟨(r.store e).value, events, .ok ()⟩) ∨
      ∃ f, r.apply e = ⟨r, [], .error f⟩ := by
  cases hc : e.check with
  | error f => exact .inr ⟨f, apply_of_check_error hc⟩
  | ok _ =>
      rw [apply_eq, hc, ok_bind]
      rcases r.settle_cases e with ⟨_, hs⟩ | ⟨f, hs⟩
      · rw [hs]
        exact .inl ⟨_, rfl⟩
      · rw [hs]
        exact .inr ⟨f, rfl⟩

/-- What stays true as records are stored stays true under edits. -/
theorem apply_preserves {P : Ring → Prop} (hs : ∀ r e, P r → P (r.store e).value) {r : Ring}
    (h : P r) (e : Edit) : P (r.apply e).ring := by
  rcases r.apply_cases e with ⟨_, he⟩ | ⟨_, he⟩
  · rw [he]
    exact hs r e h
  · rw [he]
    exact h

/-! ## Runs -/

@[simp] theorem run_nil (r : Ring) : r.run [] = r := rfl

@[simp] theorem run_cons (r : Ring) (e : Edit) (es : List Edit) :
    r.run (e :: es) = (r.apply e).ring.run es := rfl

end Ring

/-- An edit and the ring that it was made on. -/
structure Attempt where
  ring : Ring
  edit : Edit

namespace Attempt

def answer (a : Attempt) : Except RingFault Unit :=
  (a.ring.apply a.edit).answer

def accepted (a : Attempt) : Bool :=
  a.answer.isOk

theorem accepted_iff (a : Attempt) : a.accepted = true ↔ a.answer = .ok () := by
  unfold accepted
  cases a.answer <;> simp [Except.isOk, Except.toBool]

end Attempt

namespace Ring

/-- The attempts of a run, oldest first. -/
def attempts (r : Ring) : List Edit → List Attempt
  | [] => []
  | e :: es => ⟨r, e⟩ :: (r.apply e).ring.attempts es

def answers (r : Ring) (es : List Edit) : List (Except RingFault Unit) :=
  (r.attempts es).map Attempt.answer

/-- The edits of a run that were accepted, oldest first. -/
def acceptedEdits (r : Ring) (es : List Edit) : List Edit :=
  ((r.attempts es).filter (·.accepted)).map Attempt.edit

theorem segments_store (r : Ring) (e : Edit) :
    (r.store e).value.segments.toList = r.segments.toList ++ e.segment?.toList := by
  cases e <;> simp [store, pushSegment, pushTriangle, Edit.segment?]

theorem triangles_store (r : Ring) (e : Edit) :
    (r.store e).value.triangles.toList = r.triangles.toList ++ e.triangle?.toList := by
  cases e <;> simp [store, pushSegment, pushTriangle, Edit.triangle?]

/-- The records of accepted edits are stored in the order of the edits, and no others are.
Here `view` is a list of records of the ring, to which an edit adds its own. -/
theorem view_run {α : Type} (view : Ring → List α) (record? : Edit → Option α)
    (hv : ∀ r e, view (r.store e).value = view r ++ (record? e).toList) (r : Ring)
    (es : List Edit) :
    view (r.run es) = view r ++ (r.acceptedEdits es).filterMap record? := by
  induction es generalizing r with
  | nil => simp [acceptedEdits, attempts]
  | cons e es ih =>
      rw [run_cons, ih, acceptedEdits, acceptedEdits, attempts]
      rcases r.apply_cases e with ⟨_, he⟩ | ⟨_, he⟩
      · have ha : Attempt.accepted ⟨r, e⟩ = true :=
          (Attempt.accepted_iff _).mpr (congrArg Step.answer he)
        rw [he, hv]
        cases hr : record? e <;> simp [ha, hr]
      · have ha : Attempt.accepted ⟨r, e⟩ = false := by
          simp [Attempt.accepted, Attempt.answer, he, Except.isOk, Except.toBool]
        simp [he, ha]

/-- The stored segments are those of the edits that were accepted, in their order. -/
theorem segments_run (r : Ring) (es : List Edit) :
    (r.run es).segments.toList =
      r.segments.toList ++ (r.acceptedEdits es).filterMap Edit.segment? :=
  view_run (·.segments.toList) Edit.segment? segments_store r es

theorem triangles_run (r : Ring) (es : List Edit) :
    (r.run es).triangles.toList =
      r.triangles.toList ++ (r.acceptedEdits es).filterMap Edit.triangle? :=
  view_run (·.triangles.toList) Edit.triangle? triangles_store r es

end Ring

end MeshRing
