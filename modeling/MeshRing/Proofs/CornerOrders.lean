import MeshRing.Proofs.Directions
import MeshRing.Proofs.SoundTriangles

/-! Walked around from another corner or in the other direction, a triangle has the same
edges and the same angles, and the extremes of a list do not depend on its order. -/

namespace MeshRing

open Arithmetic Tolerance Float.Model UnpackedFloat

namespace Arithmetic

/-- Equal as numbers, or both NaN. -/
def SameNumber (x y : Float) : Prop :=
  (x == y) = true ∨ (x.isNaN = true ∧ y.isNaN = true)

theorem rank?_eq_none_iff {x : Float} : rank? x.toModel.unpack = none ↔ x.isNaN = true := by
  show _ ↔ x.toModel.unpack.isNaN = true
  cases x.toModel.unpack <;> simp [rank?, UnpackedFloat.isNaN]

theorem Agree.sameNumber {x y : Float} (h : Agree x y) : SameNumber x y := by
  have hbeq : (x == y) = (x.toModel.unpack.compare y.toModel.unpack == some .eq) := rfl
  rw [SameNumber, hbeq, compare_eq, ← rank?_eq_none_iff, ← rank?_eq_none_iff, h.rank?_eq]
  cases rank? y.toModel.unpack <;> simp

/-! ## Extremes of permuted lists -/

/-- The rank of a number says all but the sign of a zero. -/
theorem plain_eq_of_rank? {a b : UnpackedFloat} (h : rank? a = rank? b) : plain a = plain b := by
  have hzero : (0 : ℤ ×ₗ ℤ ×ₗ ℤ) = toLex (0, toLex (0, 0)) := rfl
  rcases a with (_ | _) | _ | _ | ⟨_ | _, m, e, hm⟩ <;>
    rcases b with (_ | _) | _ | _ | ⟨_ | _, m', e', hm'⟩ <;>
    simp [rank?, Sign.apply, hzero, plain] at h ⊢
  case finite.negative.finite.negative => exact h.symm
  case finite.positive.finite.positive => exact h.symm

section

variable {g : ℤ ×ₗ ℤ ×ₗ ℤ → ℤ ×ₗ ℤ ×ₗ ℤ → ℤ ×ₗ ℤ ×ₗ ℤ}

/-- A choice that passes over NaN is a choice between ranks, where a missing one is passed over. -/
theorem rank?_choice {x y : Float} {c : Prop} [Decidable c]
    (hnan : rank? y.toModel.unpack = none → ¬ c)
    (hg : ∀ i j, rank? x.toModel.unpack = some i → rank? y.toModel.unpack = some j →
      g i j = if c then j else i) :
    rank? (if x.isNaN then y else if c then y else x).toModel.unpack =
      (rank? x.toModel.unpack).merge g (rank? y.toModel.unpack) := by
  cases hx : rank? x.toModel.unpack with
  | none => rw [if_pos (rank?_eq_none_iff.mp hx), Option.merge_none_left]
  | some i =>
      have hx' : ¬ x.isNaN = true := fun h => by
        rw [rank?_eq_none_iff.mpr h] at hx
        cases hx
      rw [if_neg hx']
      cases hy : rank? y.toModel.unpack with
      | none => rw [if_neg (hnan hy), hx, Option.merge_none_right]
      | some j =>
          rw [Option.merge_some_some, hg i j hx hy]
          split
          · exact hy
          · exact hx

/-- Choices between ranks that may be taken in any order choose the same number
from permuted lists. -/
theorem agree_foldl_of_perm [Std.Commutative g] [Std.Associative g] {f : Float → Float → Float}
    (hf : ∀ x y, rank? (f x y).toModel.unpack =
      (rank? x.toModel.unpack).merge g (rank? y.toModel.unpack))
    {xs ys : List Float} (h : xs.Perm ys) (x : Float) : Agree (xs.foldl f x) (ys.foldl f x) := by
  have hfold (zs : List Float) : rank? (zs.foldl f x).toModel.unpack =
      (zs.map fun z => rank? z.toModel.unpack).foldl (Option.merge g) (rank? x.toModel.unpack) := by
    rw [List.foldl_map]
    exact (List.foldl_hom (fun z : Float => rank? z.toModel.unpack) fun x y => (hf x y).symm).symm
  have hcomm : RightCommutative (Option.merge g) := inferInstance
  refine plain_eq_of_rank? ?_
  rw [hfold, hfold]
  exact (h.map _).foldl_eq _

end

/-- The smaller number has the smaller rank, and a NaN is passed over. -/
theorem rank?_minNumber (x y : Float) : rank? (minNumber x y).toModel.unpack =
    (rank? x.toModel.unpack).merge min (rank? y.toModel.unpack) := by
  refine rank?_choice (fun hy => by simp [lt_iff_rank, hy]) fun i j hx hy => ?_
  have hlt : y < x ↔ j < i := by simp [lt_iff_rank, hx, hy]
  simp only [hlt, min_comm i j, min_def_lt]

theorem rank?_maxNumber (x y : Float) : rank? (maxNumber x y).toModel.unpack =
    (rank? x.toModel.unpack).merge max (rank? y.toModel.unpack) := by
  refine rank?_choice (fun hy => by simp [lt_iff_rank, hy]) fun i j hx hy => ?_
  have hlt : x < y ↔ i < j := by simp [lt_iff_rank, hx, hy]
  simp only [hlt, max_def_lt]

/-! ## Numbers without a sign -/

/-- NaN, or a number that carries no minus sign. -/
def Unsigned (a : UnpackedFloat) : Prop :=
  a = .notANumber ∨ HasSign .positive a

section

variable {a b : UnpackedFloat} {spec : Format}

theorem Unsigned.repacked (h : Unsigned a) : Unsigned (repack a) := by
  obtain rfl | h := h
  · exact .inl repack_notANumber
  · exact .inr h.repacked

theorem unsigned_mul_self (a : UnpackedFloat) : Unsigned (UnpackedFloat.mul spec a a) := by
  cases a with
  | notANumber => exact .inl rfl
  | infinity s => exact .inr (HasSign.mul_self (s := s) rfl)
  | zero s => exact .inr (HasSign.mul_self (s := s) rfl)
  | finite s m e hm => exact .inr (HasSign.mul_self (s := s) rfl)

theorem Unsigned.add (ha : Unsigned a) (hb : Unsigned b) :
    Unsigned (UnpackedFloat.add spec a b) := by
  obtain rfl | ha := ha
  · exact .inl rfl
  · obtain rfl | hb := hb
    · cases a <;> exact .inl rfl
    · exact .inr (ha.add hb)

theorem Unsigned.sqrt (h : Unsigned a) : Unsigned (UnpackedFloat.sqrt spec a) := by
  obtain rfl | h := h
  · exact .inl rfl
  · exact .inr h.sqrt

theorem Unsigned.plain_eq (h : Unsigned a) : plain a = a := by
  obtain rfl | h := h
  · rfl
  · cases a <;> cases h <;> rfl

end

theorem eq_of_unpack {x y : Float} (h : x.toModel.unpack = y.toModel.unpack) : x = y := by
  have hpack (z : Float) : Float.ofModel (.pack z.toModel.unpack) = z := z.ofBits_toBits
  rw [← hpack x, h, hpack y]

/-- Where there is no sign, numbers that agree are the same to the last bit. -/
theorem Agree.eq_of_unsigned {x y : Float} (h : Agree x y) (hx : Unsigned x.toModel.unpack)
    (hy : Unsigned y.toModel.unpack) : x = y :=
  eq_of_unpack (hx.plain_eq.symm.trans (Eq.trans h hy.plain_eq))

/-! ## Changes of sign -/

theorem mul_neg_right (a b : UnpackedFloat) {spec : Format} :
    UnpackedFloat.mul spec a b.neg = (UnpackedFloat.mul spec a b).neg := by
  have hsign (s t : Sign) : s * -t = -(s * t) := by cases s <;> cases t <;> rfl
  cases a <;> cases b
  case finite.finite s m e hm s' m' e' hm' =>
      simp only [UnpackedFloat.mul, UnpackedFloat.neg, hsign, roundWithAccuracy_neg]
  all_goals first | rfl | simp only [UnpackedFloat.mul, UnpackedFloat.neg, hsign]

theorem agree_mul_neg (x y : Float) : Agree (x * -y) (-(x * y)) := by
  rw [Agree, unpack_neg, unpack_mul, unpack_mul, unpack_neg, mul_neg_right, repack_neg]

theorem abs_eq_of_agree_neg {x y : Float} (h : Agree x (-y)) : x.abs = y.abs := by
  have hplain (a : UnpackedFloat) : (plain a).abs = a.abs := by cases a <;> rfl
  have hneg (a : UnpackedFloat) : a.neg.abs = a.abs := by cases a <;> rfl
  have habs : x.toModel.unpack.abs = y.toModel.unpack.abs := by
    rw [← hplain, h, hplain, unpack_neg, hneg]
  exact congrArg (fun a => Float.ofModel (.pack a)) habs

end Arithmetic

/-! ## Edges and angles -/

theorem Point.unsigned_distance (p q : Point) : Unsigned (p.distance q).toModel.unpack :=
  ((unsigned_mul_self _).repacked.add (unsigned_mul_self _).repacked).repacked.sqrt.repacked

theorem Point.area_swap (a b c : Point) : Agree (area a c b) (-area a b c) := by
  have hdouble : Agree (doubleArea a c b) (-doubleArea a b c) := by
    rw [doubleArea, doubleArea, Offset.cross, Offset.cross, mul_swap (c - a).du,
      mul_swap (c - a).dv]
    exact agree_sub_swap _ _
  exact (Agree.mul rfl hdouble).trans (agree_mul_neg _ _)

/-- The angle in degrees between two displacements of any length. -/
def Offset.angle (x y : Offset) : Float :=
  (clampUnit (x.dot y / (x.length * y.length))).acos * 180.0 / 3.141592653589793

theorem Offset.angle_comm (x y : Offset) : x.angle y = y.angle x := by
  rw [angle, angle, dot, dot, mul_swap x.du, mul_swap x.dv, mul_swap x.length]

namespace Corners

/-- The angles at the corners, accepted or not. -/
def cornerAngles (t : Corners) : List Float :=
  [(t.c - t.a).angle (t.b - t.a), (t.a - t.b).angle (t.c - t.b), (t.b - t.c).angle (t.a - t.c)]

theorem edgeLengths_eq (t : Corners) (tolerance : Float) : t.edgeLengths tolerance =
    if ∃ d ∈ t.edges, d ≤ tolerance then .error .shortEdge else .ok t.edges := by
  have hedge (p q : Point) : edgeLength p q tolerance =
      if p.distance q ≤ tolerance then .error .shortEdge else .ok (p.distance q) := rfl
  simp only [edgeLengths, hedge, edges, List.exists_mem_cons_iff, List.not_mem_nil, false_and,
    exists_false, or_false]
  by_cases hab : t.a.distance t.b ≤ tolerance
  · simp [hab, bind, Except.bind]
  · by_cases hbc : t.b.distance t.c ≤ tolerance <;> by_cases hca : t.c.distance t.a ≤ tolerance <;>
      simp [hab, hbc, hca, bind, Except.bind, pure, Except.pure]

theorem cornerAngle_eq_ok {before p after : Point} {tolerance : Float}
    (hbefore : ¬ before.distance p ≤ tolerance) (hafter : ¬ p.distance after ≤ tolerance) :
    cornerAngle before p after tolerance = .ok ((before - p).angle (after - p)) := by
  rw [Point.distance_comm] at hafter
  have hlong : ¬ ((before - p).length ≤ tolerance || (after - p).length ≤ tolerance) = true := by
    simpa only [Bool.or_eq_true, decide_eq_true_eq, not_or] using ⟨hbefore, hafter⟩
  exact if_neg hlong

/-- Once the edges have passed, no angle is refused: its sides are edges, in whichever direction. -/
theorem angles_eq_ok {t : Corners} {tolerance : Float} (h : ∀ d ∈ t.edges, ¬ d ≤ tolerance) :
    t.angles tolerance = .ok t.cornerAngles := by
  simp only [edges, List.forall_mem_cons] at h
  obtain ⟨hab, hbc, hca, -⟩ := h
  rw [angles, cornerAngle_eq_ok hca hab, cornerAngle_eq_ok hab hbc, cornerAngle_eq_ok hbc hca]
  rfl

/-- Whether a triangle is measured is decided by its edges alone. -/
theorem metrics_eq (t : Corners) (tolerance : Float) : t.metrics tolerance =
    if ∃ d ∈ t.edges, d ≤ tolerance then .error .shortEdge
    else .ok (t.measured t.edges t.cornerAngles) := by
  unfold metrics
  rw [edgeLengths_eq]
  split
  · rfl
  · rename_i hedges
    rw [Outcome.ok_bind, angles_eq_ok (by simpa using hedges)]
    rfl

/-! ## Orders -/

def points (t : Corners) : List Point :=
  [t.a, t.b, t.c]

/-- The triangle from its second corner. -/
def rotate (t : Corners) : Corners :=
  ⟨t.b, t.c, t.a⟩

/-- The triangle the other way around. -/
def mirror (t : Corners) : Corners :=
  ⟨t.a, t.c, t.b⟩

/-- The six orders of the corners are the rotations of the triangle and of its mirror image. -/
theorem eq_of_points_perm {t u : Corners} (h : u.points.Perm t.points) :
    u = t ∨ u = t.rotate ∨ u = t.rotate.rotate ∨
      u = t.mirror ∨ u = t.mirror.rotate ∨ u = t.mirror.rotate.rotate := by
  obtain ⟨a, b, c⟩ := t
  obtain ⟨a', b', c'⟩ := u
  have hmem := List.mem_permutations.mpr h
  have hlist : [a, b, c].permutations =
      [[a, b, c], [b, a, c], [c, b, a], [b, c, a], [c, a, b], [a, c, b]] := by cbv
  simp only [points, hlist, List.mem_cons, List.cons.injEq, and_true, List.not_mem_nil,
    or_false] at hmem
  obtain ⟨rfl, rfl, rfl⟩ | ⟨rfl, rfl, rfl⟩ | ⟨rfl, rfl, rfl⟩ | ⟨rfl, rfl, rfl⟩ | ⟨rfl, rfl, rfl⟩ |
    ⟨rfl, rfl, rfl⟩ := hmem <;> simp [rotate, mirror]

/-- The triangles have the same edges and the same angles. -/
structure Congruent (u t : Corners) : Prop where
  edges : u.edges.Perm t.edges
  angles : u.cornerAngles.Perm t.cornerAngles

namespace Congruent

theorem refl (t : Corners) : Congruent t t :=
  ⟨.refl _, .refl _⟩

theorem trans {t u v : Corners} (h : Congruent v u) (h' : Congruent u t) : Congruent v t :=
  ⟨h.edges.trans h'.edges, h.angles.trans h'.angles⟩

theorem rotate (t : Corners) : Congruent t.rotate t where
  edges := List.perm_append_singleton (t.a.distance t.b) [_, _]
  angles := List.perm_append_singleton ((t.c - t.a).angle (t.b - t.a)) [_, _]

/-- The mirror image runs along the same edges, each in the other direction. -/
theorem mirror (t : Corners) : Congruent t.mirror t where
  edges := by
    simp only [Corners.edges, Corners.mirror, Point.distance_comm t.a t.c,
      Point.distance_comm t.c t.b, Point.distance_comm t.b t.a]
    exact (List.reverse_perm t.edges)
  angles := by
    simp only [cornerAngles, Corners.mirror]
    rw [Offset.angle_comm (t.b - t.a), Offset.angle_comm (t.a - t.c), Offset.angle_comm (t.c - t.b)]
    exact (List.Perm.swap _ _ []).cons _

theorem of_points_perm {t u : Corners} (h : u.points.Perm t.points) : Congruent u t := by
  obtain rfl | rfl | rfl | rfl | rfl | rfl := eq_of_points_perm h
  · exact refl u
  · exact rotate t
  · exact (rotate _).trans (rotate t)
  · exact mirror t
  · exact (rotate _).trans (mirror t)
  · exact (rotate _).trans ((rotate _).trans (mirror t))

end Congruent

theorem unsigned_edges (t : Corners) : ∀ d ∈ t.edges, Unsigned d.toModel.unpack := by
  simp [edges, Point.unsigned_distance]

/-- Extremes of edges that agree are the same to the last bit: no zero has a sign to lose. -/
theorem foldl_edges_eq {t u : Corners} {f : Float → Float → Float}
    (hf : ∀ x y, f x y = x ∨ f x y = y) {x : Float} (hx : Unsigned x.toModel.unpack)
    (hagree : Agree (u.edges.foldl f x) (t.edges.foldl f x)) :
    u.edges.foldl f x = t.edges.foldl f x := by
  have hunsigned (v : Corners) : Unsigned (v.edges.foldl f x).toModel.unpack := by
    obtain hfirst | hedge := List.mem_cons.mp (foldl_mem_cons hf x v.edges)
    · rwa [hfirst]
    · exact v.unsigned_edges _ hedge
  exact hagree.eq_of_unsigned (hunsigned u) (hunsigned t)

namespace Congruent

variable {t u : Corners} (h : Congruent u t)
include h

theorem longest_eq : u.edges.foldl maxNumber 0.0 = t.edges.foldl maxNumber 0.0 :=
  foldl_edges_eq maxNumber_cases (.inr rfl) (agree_foldl_of_perm rank?_maxNumber h.edges _)

theorem shortest_eq : u.edges.foldl minNumber infinity = t.edges.foldl minNumber infinity :=
  foldl_edges_eq minNumber_cases (.inr rfl) (agree_foldl_of_perm rank?_minNumber h.edges _)

theorem smallest_agree :
    Agree (u.cornerAngles.foldl minNumber infinity) (t.cornerAngles.foldl minNumber infinity) :=
  agree_foldl_of_perm rank?_minNumber h.angles _

end Congruent

end Corners

/-! ## Metrics of the six orders -/

/-- Both fail with the same fault, or both succeed with related results. -/
def Outcome.Related {ε α : Type} (R : α → α → Prop) : Except ε α → Except ε α → Prop
  | .ok a, .ok b => R a b
  | .error e, .error f => e = f
  | _, _ => False

/-- The metrics say the same of the form of the triangle. -/
structure Metrics.SameForm (m' m : Metrics) : Prop where
  aspectRatio : SameNumber m'.aspectRatio m.aspectRatio
  minAngle : SameNumber m'.minAngle m.minAngle

/-- The metrics are those of a triangle and its mirror image. -/
structure Metrics.Mirrored (m' m : Metrics) : Prop extends SameForm m' m where
  area : SameNumber m'.area (-m.area)
  minHeight : SameNumber m'.minHeight m.minHeight

namespace Corners

variable {t u : Corners} {tolerance : Float}

/-- Congruent triangles are refused alike, and what relates their measures
relates their metrics. -/
theorem Congruent.related {R : Metrics → Metrics → Prop} (h : Congruent u t)
    (hR : R (u.measured u.edges u.cornerAngles) (t.measured t.edges t.cornerAngles)) :
    Outcome.Related R (u.metrics tolerance) (t.metrics tolerance) := by
  have hshort : (∃ d ∈ u.edges, d ≤ tolerance) ↔ ∃ d ∈ t.edges, d ≤ tolerance :=
    exists_congr fun d => and_congr_left fun _ => h.edges.mem_iff
  simp only [metrics_eq, hshort]
  split
  · exact rfl
  · exact hR

theorem Congruent.sameForm (h : Congruent u t) :
    (u.measured u.edges u.cornerAngles).SameForm (t.measured t.edges t.cornerAngles) where
  aspectRatio := by
    simp only [measured, h.longest_eq, h.shortest_eq]
    exact Agree.sameNumber rfl
  minAngle := h.smallest_agree.sameNumber

theorem mirrored_measured (t : Corners) :
    (t.mirror.measured t.mirror.edges t.mirror.cornerAngles).Mirrored
      (t.measured t.edges t.cornerAngles) where
  toSameForm := (Congruent.mirror t).sameForm
  area := (Point.area_swap t.a t.b t.c).sameNumber
  minHeight := by
    have harea : t.mirror.area.abs = t.area.abs := abs_eq_of_agree_neg (Point.area_swap t.a t.b t.c)
    simp only [measured, harea, (Congruent.mirror t).longest_eq]
    exact Agree.sameNumber rfl

/-- What the metrics of a triangle keep when its corners are given in another order. -/
structure OrderSpec (t : Corners) (tolerance : Float) : Prop where
  permuted : ∀ u : Corners, u.points.Perm t.points →
    Outcome.Related Metrics.SameForm (u.metrics tolerance) (t.metrics tolerance)
  mirrored : Outcome.Related Metrics.Mirrored (t.mirror.metrics tolerance) (t.metrics tolerance)

/-- All six orders of the corners give the same fault or the same form, and the mirror image has
the area of the other sign and the same height. -/
theorem order_spec (t : Corners) (tolerance : Float) : t.OrderSpec tolerance where
  permuted _ h := (Congruent.of_points_perm h).related (Congruent.of_points_perm h).sameForm
  mirrored := (Congruent.mirror t).related t.mirrored_measured

/-- Half a unit square and its mirror image are both measured, and so is a triangle with a NaN. -/
theorem order_spec_half_square :
    let zero : Binary64 := ⟨0⟩
    let one : Binary64 := ⟨0x3ff0000000000000⟩
    let nan : Binary64 := ⟨0x7ff8000000000001⟩
    let t : Corners := ⟨⟨zero, zero⟩, ⟨one, zero⟩, ⟨zero, one⟩⟩
    let broken : Corners := ⟨⟨zero, nan⟩, ⟨one, zero⟩, ⟨zero, one⟩⟩
    t.OrderSpec 1e-12 ∧ broken.OrderSpec 1e-12 ∧
      t.metrics 1e-12 = .ok (t.measured t.edges t.cornerAngles) ∧ t.area = 0.5 ∧
      t.mirror.metrics 1e-12 = .ok (t.mirror.measured t.mirror.edges t.mirror.cornerAngles) ∧
      t.mirror.area = -0.5 ∧
      broken.metrics 1e-12 = .ok (broken.measured broken.edges broken.cornerAngles) := by
  intro zero one nan t broken
  refine ⟨order_spec t _, order_spec broken _, ?_, by decide +kernel, ?_, by decide +kernel, ?_⟩
  · exact (metrics_eq t _).trans (if_neg (by decide +kernel))
  · exact (metrics_eq t.mirror _).trans (if_neg (by decide +kernel))
  · exact (metrics_eq broken _).trans (if_neg (by decide +kernel))

end Corners

end MeshRing
