import MeshRing.Proofs.Reachable

/-! All that a caller and a log see of an edit is its report. -/

namespace MeshRing

/-- What an edit answered and which events it logged. -/
structure Report where
  edit : Edit
  answer : Except RingFault Unit
  events : List Event

def Attempt.report (a : Attempt) : Report where
  edit := a.edit
  answer := a.answer
  events := (a.ring.apply a.edit).events

namespace Ring

def reports (r : Ring) (es : List Edit) : List Report :=
  (r.attempts es).map Attempt.report

@[simp] theorem reports_nil (r : Ring) : r.reports [] = [] := rfl

@[simp] theorem reports_cons (r : Ring) (e : Edit) (es : List Edit) :
    r.reports (e :: es) = Attempt.report ⟨r, e⟩ :: (r.apply e).ring.reports es := rfl

theorem run_append (r : Ring) (es es' : List Edit) : r.run (es ++ es') = (r.run es).run es' :=
  List.foldl_append

theorem reports_append (r : Ring) (es es' : List Edit) :
    r.reports (es ++ es') = r.reports es ++ (r.run es).reports es' := by
  induction es generalizing r with
  | nil => rfl
  | cons e es ih =>
      rw [List.cons_append, reports_cons, reports_cons, ih, run_cons, List.cons_append]

theorem settings_apply (r : Ring) (e : Edit) : (r.apply e).ring.settings = r.settings := by
  rcases r.apply_cases e with ⟨_, he⟩ | ⟨_, he⟩
  · rw [he, settings_store]
  · rw [he]

theorem settings_run (r : Ring) (es : List Edit) : (r.run es).settings = r.settings := by
  induction es generalizing r with
  | nil => rfl
  | cons e es ih => rw [run_cons, ih, settings_apply]

/-! ## Changes that go unnoticed -/

/-- The edit decides on the changed ring as on `r` and stores its record in both alike. -/
structure Unnoticed (change : Ring → Ring) (r : Ring) (e : Edit) : Prop where
  meets : (change r).meets e = r.meets e
  duplicates : (change r).settings.duplicates = r.settings.duplicates
  store : (change r).store e = ⟨change (r.store e).value, (r.store e).events⟩

namespace Unnoticed

variable {change : Ring → Ring} {r : Ring} {e : Edit}

theorem settle (h : Unnoticed change r e) :
    (change r).settle e = (r.settle e).map fun x => ⟨change x.value, x.events⟩ := by
  cases hm : r.meets e with
  | false =>
      rw [settle_of_not_meets hm, settle_of_not_meets (h.meets.trans hm), h.store]
      rfl
  | true =>
      rw [settle_of_meets hm, settle_of_meets (h.meets.trans hm), h.store, h.duplicates]
      cases r.settings.duplicates.settle e.duplicate <;> rfl

/-- The edit reports the same on the changed ring and leaves it changed in the same way. -/
theorem apply (h : Unnoticed change r e) :
    (change r).apply e = { r.apply e with ring := change (r.apply e).ring } := by
  rw [apply_eq, apply_eq]
  cases e.check with
  | error f => rfl
  | ok _ =>
      rw [Outcome.ok_bind, Outcome.ok_bind, h.settle]
      cases r.settle e <;> rfl

theorem apply_ring (h : Unnoticed change r e) :
    ((change r).apply e).ring = change (r.apply e).ring :=
  congrArg Step.ring h.apply

theorem report (h : Unnoticed change r e) :
    Attempt.report ⟨change r, e⟩ = Attempt.report ⟨r, e⟩ := by
  simp only [Attempt.report, Attempt.answer, h.apply]

end Unnoticed

/-- No edit notices the change in a run from `r`. Settings stay as they are along a run, so
only rings with those of `r` are asked for. -/
def UnnoticedAlong (change : Ring → Ring) (r : Ring) (es : List Edit) : Prop :=
  ∀ s : Ring, s.settings = r.settings → ∀ e ∈ es, Unnoticed change s e

namespace UnnoticedAlong

variable {change : Ring → Ring} {r : Ring} {e : Edit} {es : List Edit}

theorem head (h : UnnoticedAlong change r (e :: es)) : Unnoticed change r e :=
  h r rfl e List.mem_cons_self

theorem tail (h : UnnoticedAlong change r (e :: es)) :
    UnnoticedAlong change (r.apply e).ring es := by
  intro s hs e' he'
  exact h s (hs.trans (r.settings_apply e)) e' (List.mem_cons_of_mem e he')

/-- The step lemma along the run: the changed ring ends as the changed end. -/
theorem run (h : UnnoticedAlong change r es) : (change r).run es = change (r.run es) := by
  induction es generalizing r with
  | nil => rfl
  | cons e es ih => rw [run_cons, run_cons, h.head.apply_ring, ih h.tail]

theorem reports (h : UnnoticedAlong change r es) : (change r).reports es = r.reports es := by
  induction es generalizing r with
  | nil => rfl
  | cons e es ih =>
      rw [reports_cons, reports_cons, h.head.report, h.head.apply_ring, ih h.tail]

end UnnoticedAlong

end Ring

end MeshRing
