import MeshRing.Proofs.CornerOrders

/-! Lengths are compared with the tolerance twice, along the edges and again at the corners,
where a side of an angle runs against its edge. -/

namespace MeshRing.Corners

open Outcome

/-! ## One turn around the triangle -/

/-- The triangle from each of its corners in turn. -/
def turns (t : Corners) : List Corners :=
  [t, t.rotate, t.rotate.rotate]

/-- The three angles are one angle, taken at the first corner of each turn. -/
theorem angles_eq_mapM_turns (t : Corners) (tolerance : Float) :
    t.angles tolerance = t.turns.mapM fun u => cornerAngle u.c u.a u.b tolerance := by
  simp only [angles, turns, rotate, List.mapM_cons, List.mapM_nil, bind_assoc, pure_bind]

theorem edges_perm_of_mem_turns {t u : Corners} (h : u ∈ t.turns) : u.edges.Perm t.edges := by
  simp only [turns, List.mem_cons, List.not_mem_nil, or_false] at h
  obtain rfl | rfl | rfl := h
  · exact .refl _
  · exact (Congruent.rotate t).edges
  · exact ((Congruent.rotate t.rotate).trans (Congruent.rotate t)).edges

/-! ## The second comparison -/

/-- The sides of the angle at the first corner are as long as the edges that meet
there, to the last bit. -/
structure SidesAreEdges (u : Corners) : Prop where
  before : (u.c - u.a).length = u.c.distance u.a
  after : (u.b - u.a).length = u.a.distance u.b

/-- Lengths do not depend on direction, NaN and infinity included. -/
theorem sidesAreEdges (u : Corners) : u.SidesAreEdges where
  before := rfl
  after := Point.distance_comm u.b u.a

variable {t u : Corners} {tolerance : Float}

/-- The corners refuse nothing that the edges have let pass. -/
theorem cornerAngle_of_mem_turns (hu : u ∈ t.turns) (h : ∀ d ∈ t.edges, ¬ d ≤ tolerance) :
    cornerAngle u.c u.a u.b tolerance = .ok ((u.c - u.a).angle (u.b - u.a)) := by
  have hedges : ∀ d ∈ u.edges, ¬ d ≤ tolerance := fun d hd =>
    h d ((edges_perm_of_mem_turns hu).mem_iff.mp hd)
  simp only [edges, List.forall_mem_cons] at hedges
  obtain ⟨hab, -, hca, -⟩ := hedges
  exact cornerAngle_eq_ok hca hab

/-! ## Where a triangle is refused -/

theorem edgeLengths_eq_error_iff {f : GeometryFault} : t.edgeLengths tolerance = .error f ↔
    f = .shortEdge ∧ ∃ d ∈ t.edges, d ≤ tolerance := by
  rw [edgeLengths_eq, ite_error_eq_error_iff]

theorem metrics_eq_error_iff {f : GeometryFault} : t.metrics tolerance = .error f ↔
    f = .shortEdge ∧ ∃ d ∈ t.edges, d ≤ tolerance := by
  rw [metrics_eq, ite_error_eq_error_iff]

theorem exists_metrics_eq_ok_iff :
    (∃ m, t.metrics tolerance = .ok m) ↔ ∀ d ∈ t.edges, ¬ d ≤ tolerance := by
  rw [metrics_eq, exists_ite_error_eq_ok_iff]
  simp only [not_exists, not_and]

/-- A triangle is refused for its edges or not at all. -/
structure RefusalSpec (t : Corners) (tolerance : Float) : Prop where
  /-- A NaN, as a length or as the tolerance, refuses nothing. -/
  measured : (∃ m, t.metrics tolerance = .ok m) ↔ ∀ d ∈ t.edges, ¬ d ≤ tolerance
  /-- Every refusal is one that the edges give. -/
  refused : ∀ f, t.metrics tolerance = .error f ↔ t.edgeLengths tolerance = .error f
  fault : ∀ f, t.edgeLengths tolerance = .error f ↔ f = .shortEdge ∧ ∃ d ∈ t.edges, d ≤ tolerance
  /-- The angles are those at the first corners of the turns, which have edges for their sides. -/
  angles : t.angles tolerance = t.turns.mapM fun u => cornerAngle u.c u.a u.b tolerance
  sides : ∀ u ∈ t.turns, u.SidesAreEdges
  /-- Once the edges have passed, no corner refuses its angle. -/
  corners : ∀ lengths, t.edgeLengths tolerance = .ok lengths → ∀ u ∈ t.turns,
    cornerAngle u.c u.a u.b tolerance = .ok ((u.c - u.a).angle (u.b - u.a))

/-- A triangle is measured unless an edge is no longer than the tolerance. -/
theorem refusal_spec (t : Corners) (tolerance : Float) : t.RefusalSpec tolerance where
  measured := exists_metrics_eq_ok_iff
  refused _ := metrics_eq_error_iff.trans edgeLengths_eq_error_iff.symm
  fault _ := edgeLengths_eq_error_iff
  angles := t.angles_eq_mapM_turns tolerance
  sides u _ := u.sidesAreEdges
  corners lengths h u hu := by
    obtain ⟨hedges, -⟩ := edgeLengths_eq_ok_iff.mp h
    exact cornerAngle_of_mem_turns hu hedges

/-- Half a unit square is measured, and all its corners have an angle. So is a triangle with
infinite edges, and one without any extent when the tolerance is NaN. A triangle so small
that the squares of its sides vanish is refused even at tolerance zero. -/
theorem refusal_spec_extremes :
    let zero : Binary64 := ⟨0⟩
    let one : Binary64 := ⟨0x3ff0000000000000⟩
    let least : Binary64 := ⟨1⟩
    let infinite : Binary64 := ⟨0x7ff0000000000000⟩
    let origin : Point := ⟨zero, zero⟩
    let half : Corners := ⟨origin, ⟨one, zero⟩, ⟨zero, one⟩⟩
    let wedge : Corners := ⟨origin, ⟨infinite, zero⟩, ⟨zero, infinite⟩⟩
    let dot : Corners := ⟨origin, origin, origin⟩
    let speck : Corners := ⟨origin, ⟨least, zero⟩, ⟨zero, least⟩⟩
    (∃ m, half.metrics 1e-12 = .ok m) ∧
      (∀ u ∈ half.turns, ∃ angle, cornerAngle u.c u.a u.b 1e-12 = .ok angle) ∧
      (∃ m, wedge.metrics 1e-12 = .ok m) ∧ (∃ m, dot.metrics (0.0 / 0.0) = .ok m) ∧
      speck.metrics 0.0 = .error .shortEdge := by
  intro zero one least infinite origin half wedge dot speck
  have hhalf : ∀ d ∈ half.edges, ¬ d ≤ 1e-12 := by decide +kernel
  refine ⟨(refusal_spec half _).measured.mpr hhalf, ?_,
    (refusal_spec wedge _).measured.mpr (by decide +kernel),
    (refusal_spec dot _).measured.mpr (by decide +kernel), ?_⟩
  · intro u hu
    exact ⟨_, (refusal_spec half _).corners _ (edgeLengths_eq_ok_iff.mpr ⟨hhalf, rfl⟩) u hu⟩
  · have hfault := ((refusal_spec speck 0.0).fault _).mpr ⟨rfl, by decide +kernel⟩
    exact ((refusal_spec speck 0.0).refused _).mpr hfault

end MeshRing.Corners
