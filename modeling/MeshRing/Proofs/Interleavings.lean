import MeshRing.Proofs.Reports
import MeshRing.Proofs.RoundTrip

/-! Segments and triangles share a ring without noticing each other. -/

namespace MeshRing

def Edit.kind : Edit → RecordKind
  | .pushSegment _ | .insertSegment _ => .segment
  | .pushTriangle _ | .insertTriangle _ => .triangle

/-- The third list has the edits of the first two, each in their order. -/
inductive Interleaving : List Edit → List Edit → List Edit → Prop
  | nil : Interleaving [] [] []
  | left {ss ts es : List Edit} (e : Edit) :
      Interleaving ss ts es → Interleaving (e :: ss) ts (e :: es)
  | right {ss ts es : List Edit} (e : Edit) :
      Interleaving ss ts es → Interleaving ss (e :: ts) (e :: es)

namespace Interleaving

variable {ss ts es : List Edit}

theorem filter_left {p : Edit → Bool} (h : Interleaving ss ts es) (hs : ∀ e ∈ ss, p e = true)
    (ht : ∀ e ∈ ts, p e = false) : es.filter p = ss := by
  induction h with
  | nil => rfl
  | left e _ ih =>
      rw [List.forall_mem_cons] at hs
      rw [List.filter_cons_of_pos hs.1, ih hs.2 ht]
  | right e _ ih =>
      rw [List.forall_mem_cons] at ht
      rw [List.filter_cons_of_neg (by simp [ht.1]), ih hs ht.2]

theorem symm (h : Interleaving ss ts es) : Interleaving ts ss es := by
  induction h with
  | nil => exact .nil
  | left e _ ih => exact ih.right e
  | right e _ ih => exact ih.left e

end Interleaving

namespace Ring

/-! ## The part of a ring that holds one kind -/

/-- The settings, records and indexes of one kind; the ring is empty of the other. -/
def part : RecordKind → Ring → Ring
  | .segment, r => { r with triangles := #[], apexes := ∅, triangleKeys := ∅ }
  | .triangle, r => { r with segments := #[], ends := ∅, segmentKeys := ∅ }

theorem eq_of_part_eq {r s : Ring} (h : ∀ kind, r.part kind = s.part kind) : r = s := by
  have hs := h .segment
  have ht := h .triangle
  cases r
  cases s
  simp_all [part]

/-- An edit does not notice that the records of the other kind are gone. -/
theorem unnoticed_part (r : Ring) (e : Edit) : Unnoticed (part e.kind) r e := by
  constructor <;> cases e <;> rfl

theorem part_store_of_ne {kind : RecordKind} {e : Edit} (h : e.kind ≠ kind) (r : Ring) :
    (r.store e).value.part kind = r.part kind := by
  cases kind <;> cases e <;> first | rfl | exact absurd rfl h

theorem part_apply_of_ne {kind : RecordKind} {e : Edit} (h : e.kind ≠ kind) (r : Ring) :
    (r.apply e).ring.part kind = r.part kind := by
  rcases r.apply_cases e with ⟨_, he⟩ | ⟨_, he⟩
  · rw [he]
    exact part_store_of_ne h r
  · rw [he]

/-! ## Runs -/

/-- The part of a run is the run of the part. An edit of the other kind is filtered out, and
it leaves this part as it was. -/
theorem part_run (kind : RecordKind) (r : Ring) (es : List Edit) :
    (r.run es).part kind = (r.part kind).run (es.filter (·.kind = kind)) := by
  induction es generalizing r with
  | nil => rfl
  | cons e es ih =>
      rw [run_cons, ih]
      by_cases h : e.kind = kind
      · subst h
        rw [List.filter_cons_of_pos (by simp), run_cons, (r.unnoticed_part e).apply_ring]
      · rw [List.filter_cons_of_neg (by simp [h]), part_apply_of_ne h]

/-- What a run reports of one kind is what the part of that kind reports of its edits. -/
theorem reports_filter (kind : RecordKind) (r : Ring) (es : List Edit) :
    (r.reports es).filter (·.edit.kind = kind) =
      (r.part kind).reports (es.filter (·.kind = kind)) := by
  induction es generalizing r with
  | nil => rfl
  | cons e es ih =>
      rw [reports_cons]
      by_cases h : e.kind = kind
      · subst h
        rw [List.filter_cons_of_pos (by simp [Attempt.report]), List.filter_cons_of_pos (by simp),
          reports_cons, (r.unnoticed_part e).report, (r.unnoticed_part e).apply_ring, ih]
      · rw [List.filter_cons_of_neg (by simp [Attempt.report, h]),
          List.filter_cons_of_neg (by simp [h]), ih, part_apply_of_ne h]

/-- Edits of one kind, run on the part that holds it, report as they do on the whole ring. -/
theorem reports_part {kind : RecordKind} {es : List Edit} (h : ∀ e ∈ es, e.kind = kind) (r : Ring) :
    (r.part kind).reports es = r.reports es := by
  have hpart : UnnoticedAlong (part kind) r es := by
    intro s _ e he
    rw [← h e he]
    exact s.unnoticed_part e
  exact hpart.reports

/-- What two ways to mix `ss` and `ts` have in common. The rings at the end are the same
down to their indexes, so every query answers alike on them. -/
structure InterleavingSpec (r : Ring) (ss ts es es' : List Edit) : Prop where
  segment_reports : ∀ mixed ∈ [es, es'],
    (r.reports mixed).filter (·.edit.kind = .segment) = r.reports ss
  triangle_reports : ∀ mixed ∈ [es, es'],
    (r.reports mixed).filter (·.edit.kind = .triangle) = r.reports ts
  run_eq : r.run es = r.run es'
  run_beq : (r.run es == r.run es') = true

end Ring

namespace Interleaving

variable {ss ts es : List Edit}

theorem filter_segments (h : Interleaving ss ts es) (hs : ∀ e ∈ ss, e.kind = .segment)
    (ht : ∀ e ∈ ts, e.kind = .triangle) : es.filter (·.kind = .segment) = ss :=
  h.filter_left (fun e he => by simp [hs e he]) (fun e he => by simp [ht e he])

theorem filter_triangles (h : Interleaving ss ts es) (hs : ∀ e ∈ ss, e.kind = .segment)
    (ht : ∀ e ∈ ts, e.kind = .triangle) : es.filter (·.kind = .triangle) = ts :=
  h.symm.filter_left (fun e he => by simp [ht e he]) (fun e he => by simp [hs e he])

end Interleaving

/-- Segment edits and triangle edits commute over whole runs: both interleavings have the
same parts, which are the runs of each kind by itself. -/
theorem Reachable.interleavings_agree {r : Ring} (h : Reachable r) {ss ts es es' : List Edit}
    (hs : ∀ e ∈ ss, e.kind = .segment) (ht : ∀ e ∈ ts, e.kind = .triangle)
    (hes : Interleaving ss ts es) (hes' : Interleaving ss ts es') :
    r.InterleavingSpec ss ts es es' := by
  have hrun : r.run es = r.run es' := by
    apply Ring.eq_of_part_eq
    intro kind
    rw [Ring.part_run, Ring.part_run]
    cases kind with
    | segment => rw [hes.filter_segments hs ht, hes'.filter_segments hs ht]
    | triangle => rw [hes.filter_triangles hs ht, hes'.filter_triangles hs ht]
  refine ⟨?_, ?_, hrun, ?_⟩
  · simp only [List.forall_mem_cons, Ring.reports_filter, hes.filter_segments hs ht,
      hes'.filter_segments hs ht, Ring.reports_part hs]
    simp
  · simp only [List.forall_mem_cons, Ring.reports_filter, hes.filter_triangles hs ht,
      hes'.filter_triangles hs ht, Ring.reports_part ht]
    simp
  · rw [hrun]
    exact Ring.beq_self (h.run es').settings_check

/-- A loop, a repeated segment and a repeated triangle, one kind after the other and in turns. -/
theorem Reachable.interleavings_agree_repeats :
    let p : Point := ⟨⟨0⟩, ⟨0⟩⟩
    let loop : Edit := .pushSegment ⟨⟨1⟩, ⟨1⟩, p, p⟩
    let segment : Edit := .insertSegment ⟨⟨1⟩, ⟨2⟩, p, p⟩
    let triangle : Edit := .insertTriangle ⟨⟨1⟩, ⟨2⟩, ⟨3⟩, p⟩
    let ss := [loop, segment, segment]
    let ts := [triangle, triangle]
    Interleaving ss ts [loop, segment, segment, triangle, triangle] ∧
      Interleaving ss ts [triangle, loop, segment, triangle, segment] ∧
      Ring.InterleavingSpec .empty ss ts [loop, segment, segment, triangle, triangle]
        [triangle, loop, segment, triangle, segment] :=
  have h : Interleaving _ _ _ := .left _ (.left _ (.left _ (.right _ (.right _ .nil))))
  have h' : Interleaving _ _ _ := .right _ (.left _ (.left _ (.right _ (.left _ .nil))))
  ⟨h, h', Reachable.interleavings_agree .empty (by simp [Edit.kind]) (by simp [Edit.kind]) h h'⟩

end MeshRing
