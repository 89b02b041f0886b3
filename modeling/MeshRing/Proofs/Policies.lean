import MeshRing.Proofs.Reachable

/-! The same edits on rings that differ in their duplicate policy only. A prefix of a run is
a run, so what holds after the run holds after every edit. -/

namespace MeshRing

namespace Ring

/-- The edit is a checked insert of nodes that a stored record already has. -/
def Repeats (r : Ring) : Edit → Prop
  | .pushSegment _ | .pushTriangle _ => False
  | .insertSegment s => ∃ stored ∈ r.segments, stored.nodes.Perm s.nodes
  | .insertTriangle t => ∃ stored ∈ r.triangles, stored.nodes.Perm t.nodes

instance (r : Ring) (e : Edit) : Decidable (r.Repeats e) := by
  cases e <;> unfold Repeats <;> infer_instance

theorem Indexed.meets_iff {r : Ring} (h : r.Indexed) (e : Edit) :
    r.meets e = true ↔ r.Repeats e := by
  cases e with
  | pushSegment s => simp [meets, Repeats]
  | pushTriangle t => simp [meets, Repeats]
  | insertSegment s => exact h.joins_iff s.n0 s.n1
  | insertTriangle t => exact h.spans_iff t.n0 t.n1 t.n2

/-- The policy keeps duplicates, with or without a warning. -/
def Keeps (r : Ring) : Prop :=
  r.settings.duplicates ≠ .error

theorem Keeps.apply {r : Ring} {e : Edit} (hr : r.Keeps) (h : e.check = .ok ()) :
    ∃ warnings, r.apply e = .stored ((r.store e).after warnings) := by
  cases hm : r.meets e with
  | false => exact ⟨[], apply_of_not_meets h hm⟩
  | true =>
      rw [apply_of_meets h hm]
      cases hd : r.settings.duplicates with
      | ignore => exact ⟨_, rfl⟩
      | warn => exact ⟨_, rfl⟩
      | error => exact absurd hd hr

theorem apply_of_meets_of_error {r : Ring} {e : Edit} (hr : r.settings.duplicates = .error)
    (h : e.check = .ok ()) (hm : r.meets e = true) : r.apply e = ⟨r, [], .error e.duplicate⟩ := by
  rw [apply_of_meets h hm, hr]
  rfl

/-! ## Keeping duplicates -/

theorem Keeps.answer {r : Ring} (hr : r.Keeps) (e : Edit) : (r.apply e).answer = e.check := by
  cases h : e.check with
  | error f => rw [apply_of_check_error h]
  | ok _ =>
      obtain ⟨_, he⟩ := hr.apply h
      rw [he]
      rfl

theorem Keeps.step {r : Ring} (hr : r.Keeps) (e : Edit) : (r.apply e).ring.Keeps :=
  apply_preserves (fun r e hr => by simpa [Keeps] using hr) hr e

/-- A record is stored without a look at the settings. -/
theorem store_withSettings (r : Ring) (settings : Settings) (e : Edit) :
    (store { r with settings } e).value = { (r.store e).value with settings } := by
  cases e <;> rfl

theorem Keeps.step_withSettings {r : Ring} {settings : Settings} (hr : r.Keeps)
    (hs : Keeps { r with settings }) (e : Edit) :
    (Ring.apply { r with settings } e).ring = { (r.apply e).ring with settings } := by
  cases h : e.check with
  | error f => rw [apply_of_check_error h, apply_of_check_error h]
  | ok _ =>
      obtain ⟨_, he⟩ := hr.apply h
      obtain ⟨_, hse⟩ := hs.apply h
      rw [he, hse]
      exact r.store_withSettings settings e

/-- Two rings that keep duplicates take a run alike: only their settings tell them apart. -/
theorem Keeps.run_withSettings {r : Ring} {settings : Settings} (hr : r.Keeps)
    (hs : Keeps { r with settings }) (es : List Edit) :
    Ring.run { r with settings } es = { r.run es with settings } := by
  induction es generalizing r with
  | nil => rfl
  | cons e es ih =>
      have hstep := hr.step_withSettings hs e
      rw [run_cons, run_cons, hstep]
      exact ih (hr.step e) (hstep ▸ hs.step e)

/-- The answers of a ring that keeps duplicates do not depend on what it holds. -/
theorem Keeps.answers_eq {r : Ring} (hr : r.Keeps) (es : List Edit) :
    r.answers es = es.map Edit.check := by
  induction es generalizing r with
  | nil => rfl
  | cons e es ih =>
      rw [List.map_cons, ← hr.answer, ← ih (hr.step e)]
      rfl

/-! ## Refusing duplicates -/

/-- Rings with the same keys and the same first places of segment ends. The apexes may differ: a
repeated triangle can place a node that the stored one does not. -/
structure Alike (r s : Ring) : Prop where
  ends : s.ends = r.ends
  segmentKeys : s.segmentKeys = r.segmentKeys
  triangleKeys : s.triangleKeys = r.triangleKeys

section

variable {r s : Ring} (h : Alike r s)
include h

theorem Alike.endPlace?_eq (n : Node) : s.endPlace? n = r.endPlace? n := by
  rw [endPlace?, endPlace?, h.ends]

theorem Alike.joins_eq (m n : Node) : s.joins m n = r.joins m n := by
  rw [joins, joins, h.segmentKeys]

theorem Alike.spans_eq (l m n : Node) : s.spans l m n = r.spans l m n := by
  rw [spans, spans, h.triangleKeys]

theorem Alike.meets_eq (e : Edit) : s.meets e = r.meets e := by
  cases e with
  | pushSegment _ => rfl
  | pushTriangle _ => rfl
  | insertSegment a => exact h.joins_eq a.n0 a.n1
  | insertTriangle t => exact h.spans_eq t.n0 t.n1 t.n2

theorem Alike.trans {t : Ring} (h' : Alike s t) : Alike r t :=
  ⟨h'.ends.trans h.ends, h'.segmentKeys.trans h.segmentKeys, h'.triangleKeys.trans h.triangleKeys⟩

theorem Alike.store (e : Edit) : Alike (r.store e).value (s.store e).value := by
  obtain ⟨hends, hsegments, htriangles⟩ := h
  constructor <;> cases e <;>
    simp [Ring.store, Ring.pushSegment, Ring.pushTriangle, hends, hsegments, htriangles]

end

/-- Storing a segment again adds neither a key nor the place of an end. -/
theorem Indexed.alike_pushSegment {r : Ring} (h : r.Indexed) {s : Segment}
    (hs : r.joins s.n0 s.n1 = true) : Alike (r.pushSegment s).value r where
  ends := by
    obtain ⟨stored, hmem, hperm⟩ := (h.joins_iff _ _).mp hs
    have hends : ∀ n ∈ s.nodes, n ∈ r.ends := by
      intro n hn
      rw [h.ends, mem_endsOf]
      exact ⟨stored, hmem, hperm.mem_iff.mpr hn⟩
    simp only [Segment.nodes, List.forall_mem_cons] at hends
    simp only [Ring.pushSegment]
    rw [insertIfNew_of_mem hends.1, insertIfNew_of_mem hends.2.1]
  segmentKeys := (insert_of_mem hs).symm
  triangleKeys := rfl

theorem alike_pushTriangle {r : Ring} {t : Triangle} (h : r.spans t.n0 t.n1 t.n2 = true) :
    Alike (r.pushTriangle t).value r where
  ends := rfl
  segmentKeys := rfl
  triangleKeys := (insert_of_mem h).symm

/-- Storing a duplicate once more goes unnoticed by later edits. -/
theorem Indexed.alike_store {r : Ring} (h : r.Indexed) {e : Edit} (hm : r.meets e = true) :
    Alike (r.store e).value r := by
  cases e with
  | pushSegment s => cases hm
  | pushTriangle t => cases hm
  | insertSegment s => exact h.alike_pushSegment hm
  | insertTriangle t => exact alike_pushTriangle hm

end Ring

namespace Attempt

/-- The record was stored although one with the same nodes already was. -/
def repeated (a : Attempt) : Bool :=
  a.accepted && decide (a.ring.Repeats a.edit)

/-- The answer of a ring that refuses duplicates. -/
def strictAnswer (a : Attempt) : Except RingFault Unit :=
  if a.repeated then .error a.edit.duplicate else a.answer

theorem isOk_strictAnswer (a : Attempt) : a.strictAnswer.isOk = (a.accepted && !a.repeated) := by
  unfold strictAnswer
  cases h : a.repeated <;> simp [accepted, Except.isOk, Except.toBool]

end Attempt

/-- The accepted edits of a run that repeated no record, oldest first. -/
def Ring.freshEdits (r : Ring) (es : List Edit) : List Edit :=
  ((r.attempts es).filter fun a => a.accepted && !a.repeated).map Attempt.edit

/-- `w` keeps the duplicates that `x` refuses, and `x` has not noticed. -/
structure Lockstep (w x : Ring) : Prop where
  keeps : w.Keeps
  refuses : x.settings.duplicates = .error
  indexed : w.Indexed
  alike : w.Alike x

namespace Lockstep

open MeshRing.Ring

variable {w x : Ring}

theorem repeated_eq (h : Lockstep w x) (e : Edit) :
    Attempt.repeated ⟨w, e⟩ = (e.check.isOk && w.meets e) := by
  rw [Attempt.repeated, Attempt.accepted, Attempt.answer, h.keeps.answer]
  simp only [← h.indexed.meets_iff, Bool.decide_eq_true]

/-- One edit keeps two rings in lockstep. A repetition is stored by `w` only, which its keys
and the places of its segment ends do not show. -/
theorem step (h : Lockstep w x) (e : Edit) :
    Lockstep (w.apply e).ring (x.apply e).ring ∧
      (x.apply e).answer = Attempt.strictAnswer ⟨w, e⟩ := by
  rw [Attempt.strictAnswer, h.repeated_eq, Attempt.answer, h.keeps.answer]
  cases hc : e.check with
  | error f =>
      rw [apply_of_check_error hc, apply_of_check_error hc]
      exact ⟨h, by simp [Except.isOk, Except.toBool]⟩
  | ok _ =>
      obtain ⟨warnings, hw⟩ := h.keeps.apply hc
      have hkeeps := h.keeps.step e
      rw [hw] at hkeeps ⊢
      cases hm : w.meets e with
      | false =>
          rw [apply_of_not_meets hc (by rw [h.alike.meets_eq, hm])]
          refine ⟨⟨hkeeps, ?_, h.indexed.store e, h.alike.store e⟩, by simp [Step.stored]⟩
          simpa [Step.stored] using h.refuses
      | true =>
          rw [apply_of_meets_of_error h.refuses hc (by rw [h.alike.meets_eq, hm])]
          refine ⟨⟨hkeeps, h.refuses, h.indexed.store e, ?_⟩, rfl⟩
          exact (h.indexed.alike_store hm).trans h.alike

/-- Two rings in lockstep stay so along a run, and the strict answers tell them apart
at the repetitions. -/
theorem run (h : Lockstep w x) (es : List Edit) :
    Lockstep (w.run es) (x.run es) ∧
      x.answers es = (w.attempts es).map Attempt.strictAnswer := by
  induction es generalizing w x with
  | nil => exact ⟨h, rfl⟩
  | cons e es ih =>
      obtain ⟨hstep, hanswer⟩ := h.step e
      obtain ⟨hrun, hanswers⟩ := ih hstep
      refine ⟨hrun, ?_⟩
      rw [attempts, List.map_cons, ← hanswer, ← hanswers]
      rfl

/-- The ring that refuses accepts what the other one stores for the first time. -/
theorem acceptedEdits_eq (h : Lockstep w x) (es : List Edit) :
    x.acceptedEdits es = w.freshEdits es := by
  induction es generalizing w x with
  | nil => rfl
  | cons e es ih =>
      obtain ⟨hstep, hanswer⟩ := h.step e
      have ha : Attempt.accepted ⟨x, e⟩ =
          (Attempt.accepted ⟨w, e⟩ && !Attempt.repeated ⟨w, e⟩) := by
        rw [← Attempt.isOk_strictAnswer, ← hanswer]
        rfl
      specialize ih hstep
      simp only [acceptedEdits, freshEdits, attempts, List.filter_cons] at *
      rw [ha]
      split <;> simp [ih]

end Lockstep

theorem Edit.check_ne_duplicate (e e' : Edit) : e.check ≠ .error e'.duplicate := by
  rcases e.check_cases with h | ⟨_, h⟩ | ⟨_, _, _, h⟩ | ⟨_, _, h⟩ <;>
    rw [h] <;> cases e' <;> simp [duplicate]

namespace Ring

/-- What the same edits make of a ring that ignores duplicates, one that warns and
one that refuses. -/
structure PolicySpec (ignoring warning refusing : Ring) (es : List Edit) : Prop where
  segments_eq : (ignoring.run es).segments = (warning.run es).segments
  triangles_eq : (ignoring.run es).triangles = (warning.run es).triangles
  answers_eq : ignoring.answers es = warning.answers es
  joins_eq : ∀ r ∈ [ignoring, refusing], ∀ m n, (r.run es).joins m n = (warning.run es).joins m n
  spans_eq : ∀ r ∈ [ignoring, refusing], ∀ l m n,
    (r.run es).spans l m n = (warning.run es).spans l m n
  endPlace?_eq : ∀ r ∈ [ignoring, refusing], ∀ n,
    (r.run es).endPlace? n = (warning.run es).endPlace? n
  /-- Against the stored segments, the kept ones lack those of repeated inserts and no others. -/
  stored_segments :
    (warning.run es).segments.toList = (warning.acceptedEdits es).filterMap Edit.segment?
  kept_segments :
    (refusing.run es).segments.toList = (warning.freshEdits es).filterMap Edit.segment?
  stored_triangles :
    (warning.run es).triangles.toList = (warning.acceptedEdits es).filterMap Edit.triangle?
  kept_triangles :
    (refusing.run es).triangles.toList = (warning.freshEdits es).filterMap Edit.triangle?
  refusals : refusing.answers es = (warning.attempts es).map fun a =>
    if a.repeated then .error a.edit.duplicate else a.answer
  /-- Without the refusals, no answer is a duplicate. -/
  answers_ne : ∀ answer ∈ warning.answers es, ∀ e : Edit, answer ≠ .error e.duplicate

/-- Keeping duplicates with or without a warning stores the same records, and refusing them
leaves out exactly the repeated inserts, which no later decision notices. -/
theorem policy_spec (tolerance : Float) (es : List Edit) :
    PolicySpec { settings := ⟨tolerance, .ignore⟩ } { settings := ⟨tolerance, .warn⟩ }
      { settings := ⟨tolerance, .error⟩ } es := by
  have hignore : Keeps { settings := ⟨tolerance, .ignore⟩ } := by simp [Keeps]
  have hwarn : Keeps { settings := ⟨tolerance, .warn⟩ } := by simp [Keeps]
  have hlock : Lockstep { settings := ⟨tolerance, .warn⟩ } { settings := ⟨tolerance, .error⟩ } :=
    ⟨hwarn, rfl, indexed_ofRecords _ #[] #[], rfl, rfl, rfl⟩
  have hrun := hwarn.run_withSettings hignore es
  obtain ⟨⟨_, _, _, halike⟩, hanswers⟩ := hlock.run es
  have hne : ∀ answer ∈ es.map Edit.check, ∀ e : Edit, answer ≠ .error e.duplicate := by
    intro answer hmem e
    obtain ⟨e', _, rfl⟩ := List.mem_map.mp hmem
    exact e'.check_ne_duplicate e
  exact {
    segments_eq := by rw [hrun]
    triangles_eq := by rw [hrun]
    answers_eq := by rw [hignore.answers_eq, hwarn.answers_eq]
    joins_eq := by
      simp only [List.forall_mem_cons, halike.joins_eq, hrun]
      simp [joins]
    spans_eq := by
      simp only [List.forall_mem_cons, halike.spans_eq, hrun]
      simp [spans]
    endPlace?_eq := by
      simp only [List.forall_mem_cons, halike.endPlace?_eq, hrun]
      simp [endPlace?]
    stored_segments := by simp [segments_run]
    kept_segments := by simp [segments_run, hlock.acceptedEdits_eq]
    stored_triangles := by simp [triangles_run]
    kept_triangles := by simp [triangles_run, hlock.acceptedEdits_eq]
    refusals := hanswers
    answers_ne := by rwa [hwarn.answers_eq] }

end Ring

end MeshRing
