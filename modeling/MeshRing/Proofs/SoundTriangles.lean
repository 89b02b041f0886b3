import MeshRing.Proofs.Places
import MeshRing.Proofs.RoundedOperations
import MeshRing.Proofs.Touching

/-! A triangle that passes validation has finite corners and proper edges, whatever NaN,
infinities and overflows they may lead to: all of them show in the height. -/

namespace MeshRing

open Arithmetic Outcome

/-! ## Lengths and areas -/

namespace Point

/-- The area of a triangle is finite only if its corners are. -/
theorem isFinite_of_area {a b c : Point} (h : (area a b c).isFinite = true) :
    ∀ p ∈ [a, b, c], p.isFinite = true := by
  obtain ⟨hleft, hright⟩ := isFinite_of_sub (isFinite_of_mul h).2
  obtain ⟨hbu, hcv⟩ := isFinite_of_mul hleft
  obtain ⟨hbv, hcu⟩ := isFinite_of_mul hright
  obtain ⟨hbu, hau⟩ := isFinite_of_sub hbu
  obtain ⟨hbv, hav⟩ := isFinite_of_sub hbv
  have hcu := (isFinite_of_sub hcu).1
  have hcv := (isFinite_of_sub hcv).1
  have hfinite (p : Point) (hu : p.u.isFinite = true) (hv : p.v.isFinite = true) :
      p.isFinite = true := Bool.and_eq_true_iff.mpr ⟨hu, hv⟩
  simp [hfinite a hau hav, hfinite b hbu hbv, hfinite c hcu hcv]

/-- The distance of finite points may be infinite, but it is not NaN. -/
theorem distance_nonneg {p q : Point} (hp : p.isFinite = true) (hq : q.isFinite = true) :
    0 ≤ p.distance q := by
  obtain ⟨hpu, hpv⟩ := Bool.and_eq_true_iff.mp hp
  obtain ⟨hqu, hqv⟩ := Bool.and_eq_true_iff.mp hq
  obtain ⟨_, hu⟩ := exists_hasSign_of_isFinite hpu hqu
  obtain ⟨_, hv⟩ := exists_hasSign_of_isFinite hpv hqv
  have hdu : HasSign .positive ((p - q).du * (p - q).du).toModel.unpack := hu.mul_self.repacked
  have hdv : HasSign .positive ((p - q).dv * (p - q).dv).toModel.unpack := hv.mul_self.repacked
  have hdot : HasSign .positive ((p - q).dot (p - q)).toModel.unpack := (hdu.add hdv).repacked
  exact nonneg_of_hasSign hdot.sqrt.repacked

end Point

/-- A height that is finite and above the tolerance comes of an area and an edge that are
finite, and the area is not zero. -/
theorem isFinite_of_minHeight {area longest tolerance : Float} (ht : 0 ≤ tolerance)
    (hfinite : (2.0 * area.abs / longest).isFinite = true)
    (hlow : tolerance < 2.0 * area.abs / longest) :
    longest.isFinite = true ∧ area.isFinite = true ∧ ¬ Sideless area.toModel.unpack := by
  have hside : ¬ Sideless (2.0 * area.abs / longest).toModel.unpack := fun hs =>
    not_pos_of_sideless hs (Tolerance.lt_of_le_of_lt ht hlow)
  refine ⟨?_, isFinite_of_abs (isFinite_of_mul (isFinite_of_div hfinite)).2, fun hs => hside ?_⟩
  · by_contra hlongest
    exact hside (sideless_div _ (Bool.eq_false_iff.mpr hlongest)).repacked
  · rw [mul_swap]
    exact ((hs.abs.repacked.mul _).repacked.div _).repacked

/-! ## Extremes of a list -/

open Tolerance in
theorem le_maxNumber {x y : Float} (hx : 0 ≤ x) (hy : 0 ≤ y) :
    x ≤ maxNumber x y ∧ y ≤ maxNumber x y := by
  have hx' := exists_rank?_of_le hx
  have hy' := exists_rank?_of_le hy
  rw [maxNumber, isNaN_eq_false hx']
  by_cases h : x < y
  · simp only [h, ite_true]
    exact ⟨le_of_lt h, le_refl_of_rank? hy'⟩
  · simp only [h, ite_false]
    exact ⟨le_refl_of_rank? hx', le_of_not_lt hx' hy' h⟩

open Tolerance in
theorem le_foldl_maxNumber {xs : List Float} {x : Float} (hx : 0 ≤ x) (hxs : ∀ y ∈ xs, 0 ≤ y) :
    ∀ y ∈ x :: xs, y ≤ xs.foldl maxNumber x := by
  induction xs generalizing x with
  | nil => simpa using le_refl_of_rank? (exists_rank?_of_le hx)
  | cons y ys ih =>
      obtain ⟨hy, hys⟩ := List.forall_mem_cons.mp hxs
      obtain ⟨hxmax, hymax⟩ := le_maxNumber hx hy
      obtain ⟨hmax, hrest⟩ := List.forall_mem_cons.mp (ih (le_trans hx hxmax) hys)
      simp only [List.forall_mem_cons, List.foldl_cons]
      exact ⟨le_trans hxmax hmax, le_trans hymax hmax, hrest⟩

theorem minNumber_cases (x y : Float) : minNumber x y = x ∨ minNumber x y = y := by
  unfold minNumber
  split_ifs <;> simp

theorem maxNumber_cases (x y : Float) : maxNumber x y = x ∨ maxNumber x y = y := by
  unfold maxNumber
  split_ifs <;> simp

/-- What is chosen again and again between two numbers is one of them all. -/
theorem foldl_mem_cons {f : Float → Float → Float} (hf : ∀ x y, f x y = x ∨ f x y = y) (x : Float)
    (xs : List Float) : xs.foldl f x ∈ x :: xs := by
  induction xs generalizing x with
  | nil => exact List.mem_cons_self
  | cons y ys ih =>
      have hmem := ih (f x y)
      rw [List.foldl_cons]
      obtain h | h := hf x y <;> rw [h] at hmem ⊢ <;> simp only [List.mem_cons] at hmem ⊢ <;> tauto

theorem minNumber_infinity {x : Float} (hx : x.isFinite = true) : minNumber infinity x = x := by
  have hinfinity : infinity.toModel.unpack = .infinity .positive := by rfl
  have hlt : x < infinity := by
    rw [Tolerance.lt_iff, hinfinity]
    change x.toModel.unpack.isFinite = true at hx
    rcases hu : x.toModel.unpack with _ | _ | _ | ⟨_ | _, m, e, hm⟩ <;> rw [hu] at hx <;>
      first | rfl | cases hx
  rw [minNumber, if_pos hlt, ite_self]

namespace Corners

/-- The metrics of a triangle with such edge lengths and angles. -/
def measured (t : Corners) (lengths angles : List Float) : Metrics where
  aspectRatio := lengths.foldl maxNumber 0.0 / lengths.foldl minNumber infinity
  minAngle := angles.foldl minNumber infinity
  area := t.area
  minHeight := 2.0 * t.area.abs / lengths.foldl maxNumber 0.0

end Corners

/-- What the metrics of a valid triangle have to be. -/
def Metrics.validate (m : Metrics) (tolerance : Float) : Except GeometryFault Metrics := do
  if !m.minHeight.isFinite || m.minHeight ≤ tolerance then throw (.degenerate m.minHeight)
  if m.area < 0.0 then throw (.inverted m.area)
  if !m.minAngle.isFinite || m.minAngle ≤ 0.0 then throw (.invalidAngle m.minAngle)
  return m

namespace Corners

/-- The lengths of the edges, accepted or not. -/
def edges (t : Corners) : List Float :=
  [t.a.distance t.b, t.b.distance t.c, t.c.distance t.a]

theorem edgeLength_eq_ok_iff {p q : Point} {tolerance length : Float} :
    edgeLength p q tolerance = .ok length ↔ ¬ p.distance q ≤ tolerance ∧ p.distance q = length := by
  unfold edgeLength
  by_cases h : p.distance q ≤ tolerance <;> simp [h]

theorem edgeLengths_eq_ok_iff {t : Corners} {tolerance : Float} {lengths : List Float} :
    t.edgeLengths tolerance = .ok lengths ↔
      (∀ d ∈ t.edges, ¬ d ≤ tolerance) ∧ t.edges = lengths := by
  simp only [edgeLengths, bind_eq_ok_iff, edgeLength_eq_ok_iff, pure_eq_ok_iff, edges,
    List.forall_mem_cons]
  constructor
  · rintro ⟨_, ⟨hab, rfl⟩, _, ⟨hbc, rfl⟩, _, ⟨hca, rfl⟩, rfl⟩
    exact ⟨⟨hab, hbc, hca, List.forall_mem_nil _⟩, rfl⟩
  · rintro ⟨⟨hab, hbc, hca, -⟩, rfl⟩
    exact ⟨_, ⟨hab, rfl⟩, _, ⟨hbc, rfl⟩, _, ⟨hca, rfl⟩, rfl⟩

theorem validMetrics_eq (t : Corners) (tolerance : Float) : t.validMetrics tolerance =
    t.edgeLengths tolerance >>= fun lengths => t.angles tolerance >>= fun angles =>
      (t.measured lengths angles).validate tolerance := by
  unfold validMetrics metrics
  simp only [bind_assoc, pure_bind]
  rfl

/-- What may be relied on of a triangle with valid metrics `m`. -/
structure Sound (t : Corners) (tolerance : Float) (m : Metrics) : Prop where
  corners : ∀ p ∈ [t.a, t.b, t.c], p.isFinite = true
  edges : ∀ d ∈ t.edges, d.isFinite = true ∧ tolerance < d
  area : m.area.isFinite = true ∧ 0 < m.area
  minHeight : m.minHeight.isFinite = true ∧ tolerance < m.minHeight
  aspectRatio : m.aspectRatio.isNaN = false ∧ 1 ≤ m.aspectRatio
  minAngle : m.minAngle.isFinite = true ∧ 0 < m.minAngle

end Corners

theorem Metrics.validate_eq_ok_iff {m m' : Metrics} {tolerance : Float} :
    m.validate tolerance = .ok m' ↔
      (m.minHeight.isFinite = true ∧ ¬ m.minHeight ≤ tolerance) ∧ ¬ m.area < 0.0 ∧
        (m.minAngle.isFinite = true ∧ ¬ m.minAngle ≤ 0.0) ∧ m = m' := by
  rw [validate, ite_throw_bind_eq_ok_iff, ite_throw_bind_eq_ok_iff, ite_throw_bind_eq_ok_iff,
    pure_eq_ok_iff]
  simp

namespace Corners

variable {t : Corners} {tolerance : Float}

/-- Edges that pass are in order once their longest is finite. No edge is NaN, so none is
passed over in the search, and the shortest is found from infinity on. -/
theorem sound_edges (ht : 0 ≤ tolerance) (hcorners : ∀ p ∈ [t.a, t.b, t.c], p.isFinite = true)
    (hedges : ∀ d ∈ t.edges, ¬ d ≤ tolerance)
    (hlongest : (t.edges.foldl maxNumber 0.0).isFinite = true) :
    (∀ d ∈ t.edges, d.isFinite = true ∧ tolerance < d) ∧
      1 ≤ t.edges.foldl maxNumber 0.0 / t.edges.foldl minNumber infinity := by
  have hzero : (0 : Float) ≤ 0.0 := by decide
  have hnonneg : ∀ d ∈ t.edges, 0 ≤ d := by
    simp only [List.forall_mem_cons] at hcorners
    obtain ⟨ha, hb, hc, -⟩ := hcorners
    simp only [edges, List.forall_mem_cons]
    exact ⟨Point.distance_nonneg ha hb, Point.distance_nonneg hb hc, Point.distance_nonneg hc ha,
      List.forall_mem_nil _⟩
  have hle : ∀ d ∈ t.edges, d ≤ t.edges.foldl maxNumber 0.0 := fun d hd =>
    le_foldl_maxNumber hzero hnonneg d (List.mem_cons_of_mem _ hd)
  have hsound : ∀ d ∈ t.edges, d.isFinite = true ∧ tolerance < d := fun d hd => by
    have hfinite : d.isFinite = true := isFinite_of_le (hnonneg d hd) (hle d hd) hlongest
    exact ⟨hfinite, Tolerance.lt_of_not_le (Tolerance.exists_rank?_of_isFinite hfinite)
      (Tolerance.exists_rank?_of_le ht) (hedges d hd)⟩
  have hshortest : t.edges.foldl minNumber infinity ∈ t.edges := by
    have hfirst := (hsound (t.a.distance t.b) List.mem_cons_self).1
    rw [edges, List.foldl_cons, minNumber_infinity hfirst]
    exact foldl_mem_cons minNumber_cases _ _
  obtain ⟨hfinite, hpos⟩ := hsound _ hshortest
  exact ⟨hsound, one_le_div hlongest hfinite (Tolerance.lt_of_le_of_lt ht hpos) (hle _ hshortest)⟩

/-- Valid metrics are sound, with any angles at all: the height vouches for the area, the
area for the corners, and both for the edges. -/
theorem sound_of_validate (ht : 0 ≤ tolerance) {angles : List Float} {m : Metrics}
    (hedges : ∀ d ∈ t.edges, ¬ d ≤ tolerance)
    (h : (t.measured t.edges angles).validate tolerance = .ok m) : t.Sound tolerance m := by
  obtain ⟨⟨hheight, hlow⟩, hneg, ⟨hangle, hflat⟩, rfl⟩ := Metrics.validate_eq_ok_iff.mp h
  have hzero : (0.0 : Float) = 0 := by decide
  have htolerance := Tolerance.exists_rank?_of_le ht
  have hheight' :=
    Tolerance.lt_of_not_le (Tolerance.exists_rank?_of_isFinite hheight) htolerance hlow
  obtain ⟨hlongest, harea, hside⟩ := isFinite_of_minHeight ht hheight hheight'
  have hcorners := Point.isFinite_of_area harea
  obtain ⟨hsound, hratio⟩ := sound_edges ht hcorners hedges hlongest
  rw [hzero] at hneg hflat
  exact {
    corners := hcorners
    edges := hsound
    area := ⟨harea, pos_of_not_neg hside hneg⟩
    minHeight := ⟨hheight, hheight'⟩
    aspectRatio := ⟨Tolerance.isNaN_eq_false (Tolerance.exists_rank?_of_le hratio), hratio⟩
    minAngle := ⟨hangle, Tolerance.lt_of_not_le (Tolerance.exists_rank?_of_isFinite hangle)
      Tolerance.exists_rank?_zero hflat⟩ }

theorem sound_of_validMetrics (ht : 0 ≤ tolerance) {m : Metrics}
    (h : t.validMetrics tolerance = .ok m) : t.Sound tolerance m := by
  rw [validMetrics_eq] at h
  obtain ⟨_, hlengths, h⟩ := bind_eq_ok_iff.mp h
  obtain ⟨angles, -, h⟩ := bind_eq_ok_iff.mp h
  obtain ⟨hedges, rfl⟩ := edgeLengths_eq_ok_iff.mp hlengths
  exact sound_of_validate ht hedges h

end Corners

namespace Ring

/-- What may be relied on once a triangle has passed validation. -/
structure SoundSpec (r : Ring) : Prop where
  /-- Of the triangle itself, with any angles reported for it. -/
  measured : ∀ (t : Corners) (tolerance : Float), 0 ≤ tolerance → (∀ d ∈ t.edges, ¬ d ≤ tolerance) →
    ∀ angles m, (t.measured t.edges angles).validate tolerance = .ok m → t.Sound tolerance m
  validMetrics : ∀ (t : Corners) (tolerance : Float), 0 ≤ tolerance →
    ∀ m, t.validMetrics tolerance = .ok m → t.Sound tolerance m
  /-- Of a triangle of the ring. -/
  validMetricsAt : ∀ i m, r.validMetricsAt i = .ok m →
    ∃ t, r.corners i = .ok t ∧ t.Sound r.settings.tolerance m

end Ring

/-- The tolerance of a reachable ring is not negative, so valid metrics of its
triangles are sound. -/
theorem Reachable.sound_spec {r : Ring} (h : Reachable r) : r.SoundSpec where
  measured _ _ ht hedges _ _ := Corners.sound_of_validate ht hedges
  validMetrics _ _ ht _ := Corners.sound_of_validMetrics ht
  validMetricsAt i m hm := by
    obtain ⟨t, hcorners, hmetrics⟩ := bind_eq_ok_iff.mp hm
    exact ⟨t, hcorners, Corners.sound_of_validMetrics (Tolerance.nonneg_of_check h.settings_check)
      (mapError_eq_ok_iff.mp hmetrics)⟩

/-- Half a unit square passes with the angles that it has. -/
theorem Reachable.sound_spec_half_square :
    let zero : Binary64 := ⟨0⟩
    let one : Binary64 := ⟨0x3ff0000000000000⟩
    let t : Corners := ⟨⟨zero, zero⟩, ⟨one, zero⟩, ⟨zero, one⟩⟩
    let r := Ring.empty.run
      [.insertSegment ⟨⟨1⟩, ⟨2⟩, t.a, t.b⟩, .insertTriangle ⟨⟨1⟩, ⟨2⟩, ⟨3⟩, t.c⟩]
    let m := t.measured t.edges [90.0, 45.0, 45.0]
    Reachable r ∧ r.SoundSpec ∧ r.corners 0 = .ok t ∧ m.validate r.settings.tolerance = .ok m ∧
      t.Sound r.settings.tolerance m := by
  intro zero one t r m
  have hr : Reachable r := Reachable.empty.run _
  have hspec := Reachable.sound_spec hr
  have hvalid : m.validate r.settings.tolerance = .ok m :=
    Metrics.validate_eq_ok_iff.mpr ⟨⟨by decide +kernel, by decide +kernel⟩, by decide +kernel,
      ⟨by decide +kernel, by decide +kernel⟩, rfl⟩
  refine ⟨hr, hspec, by decide +kernel, hvalid, ?_⟩
  exact hspec.measured t _ (by decide +kernel) (by decide +kernel) _ m hvalid

end MeshRing
