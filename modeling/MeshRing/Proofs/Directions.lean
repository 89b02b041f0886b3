import MeshRing.Proofs.ExactAreas
import MeshRing.Proofs.Touching

/-! A side test measures from the first end of the line, and rounding can tell its two ends
apart. A segment can be reversed wherever both its ends give opposite areas. -/

namespace MeshRing

open Arithmetic

namespace Side

/-- The side along the reversed line. -/
def reverse : Side → Side
  | .left => .right
  | .right => .left
  | .on => .on

theorem opposite_comm (s s' : Side) : s.opposite s' = s'.opposite s := by
  cases s <;> cases s' <;> rfl

theorem opposite_reverse (s s' : Side) : s.reverse.opposite s'.reverse = s.opposite s' := by
  cases s <;> cases s' <;> rfl

end Side

namespace Tolerance

/-- Opposite distances lie on opposite sides, also where zero has lost its sign on the way. -/
theorem ofDistance_reverse {d d' t : Float} (ht : 0 ≤ t) (h : Agree d' (-d)) :
    Side.ofDistance d' t = (Side.ofDistance d t).reverse := by
  have hleft : d' > t ↔ d < -t := h.lt_right.trans lt_neg_comm
  have hright : d' < -t ↔ d > t := lt_neg_comm.trans (h.neg.trans (Agree.neg_neg d)).lt_right
  unfold Side.ofDistance
  by_cases hd : d < -t
  · have hnot : ¬ d > t := not_lt_of_lt (lt_of_lt_of_le hd (neg_le_self ht))
    simp only [hleft, hright, hd, hnot, ite_true, ite_false, Side.reverse]
  · simp only [hleft, hright, hd, ite_false]
    split <;> rfl

end Tolerance

namespace Point

/-- Opposite displacements have the same length, to the last bit. -/
theorem distance_comm (p q : Point) : p.distance q = q.distance p := by
  have hu : (p - q).du * (p - q).du = (q - p).du * (q - p).du := (agree_sub_swap _ _).mul_self_eq
  have hv : (p - q).dv * (p - q).dv = (q - p).dv * (q - p).dv := (agree_sub_swap _ _).mul_self_eq
  simp only [distance, Offset.length, Offset.dot, hu, hv]

/-- The line from `a` to `b` gives `c` opposite areas from its two ends. -/
def Balanced (a b c : Point) : Prop :=
  Agree (doubleArea b a c) (-doubleArea a b c)

theorem Balanced.symm {a b c : Point} (h : Balanced a b c) : Balanced b a c :=
  ((Agree.neg_neg _).symm.trans h.neg.symm)

/-- Only rounding tells the ends of a line apart. -/
theorem balanced_of_exactArea {a b c : Point} (h : ExactArea a b c) (h' : ExactArea b a c) :
    Balanced a b c := by
  have hneg : (-doubleArea a b c).isFinite = true := by rw [isFinite_neg, h.isFinite]
  refine agree_of_toRat h'.isFinite hneg ?_
  rw [Tolerance.unpack_neg, toRat_neg, h.value, h'.value, exactDoubleArea_swap]

/-- On a lattice every line has the same areas from both its ends, up to the sign. -/
theorem OnLattice.balanced {e : ℤ} (hlow : -537 ≤ e) (hhigh : e ≤ 485) {a b c : Point}
    (ha : OnLattice e a) (hb : OnLattice e b) (hc : OnLattice e c) : Balanced a b c :=
  balanced_of_exactArea (ha.exactArea hlow hhigh hb hc) (hb.exactArea hlow hhigh ha hc)

/-- Seen along the reversed line, a point lies on the other side. -/
theorem Balanced.side {a b c : Point} {t : Float} (ht : 0 ≤ t) (h : Balanced a b c) :
    side b a c t = (side a b c t).reverse := by
  have hlength : b.distance a = a.distance b := distance_comm b a
  by_cases hshort : a.distance b ≤ t
  · rw [side_of_le hshort, side_of_le (hlength ▸ hshort), Side.reverse]
  · rw [side_of_not_le hshort, side_of_not_le (hlength ▸ hshort), hlength]
    exact Tolerance.ofDistance_reverse ht ((Agree.div h _).trans (agree_neg_div _ _))

theorem Balanced.separates {a b p q : Point} {t : Float} (ht : 0 ≤ t) (hp : Balanced a b p)
    (hq : Balanced a b q) : separates b a p q t = separates a b p q t := by
  rw [Point.separates, hp.side ht, hq.side ht, Side.opposite_reverse, Point.separates]

theorem separates_comm (a b p q : Point) (t : Float) : separates a b q p t = separates a b p q t :=
  Side.opposite_comm _ _

/-- It does not matter which of two segments is tested against which. -/
theorem crossing_comm (a0 a1 b0 b1 : Point) (t : Float) :
    crossing b0 b1 a0 a1 t = crossing a0 a1 b0 b1 t :=
  Bool.and_comm _ _

theorem crossing_reverse {a0 a1 b0 b1 : Point} {t : Float} (ht : 0 ≤ t) (h0 : Balanced a0 a1 b0)
    (h1 : Balanced a0 a1 b1) : crossing a1 a0 b0 b1 t = crossing a0 a1 b0 b1 t := by
  rw [crossing, separates_comm b0 b1 a0 a1, h0.separates ht h1, crossing]

theorem crossing_reverse_right {a0 a1 b0 b1 : Point} {t : Float} (ht : 0 ≤ t)
    (h0 : Balanced b0 b1 a0) (h1 : Balanced b0 b1 a1) :
    crossing a0 a1 b1 b0 t = crossing a0 a1 b0 b1 t := by
  rw [crossing_comm b1 b0, crossing_reverse ht h0 h1, crossing_comm]

end Point

def Segment.reverse (s : Segment) : Segment :=
  ⟨s.n1, s.n0, s.p1, s.p0⟩

theorem Segment.contains_reverse (s : Segment) (n : Node) :
    s.reverse.contains n = s.contains n := by
  simp [contains, nodes, reverse, or_comm]

namespace Ring

variable {r : Ring} (ht : 0 ≤ r.settings.tolerance) {m n : Node} {p q : Point}
include ht

theorem crosses_reverse (h : ∀ s ∈ r.segments, Point.Balanced p q s.p0 ∧ Point.Balanced p q s.p1) :
    r.crosses n m q p = r.crosses m n p q := by
  rw [Bool.eq_iff_iff, crosses_iff, crosses_iff]
  refine exists_congr fun s => and_congr_right fun hs => ?_
  obtain ⟨h0, h1⟩ := h s hs
  rw [Point.crossing_reverse ht h0 h1]
  exact and_left_comm

/-- Where the stored segments can be reversed, it does not matter in which
direction they are stored. -/
theorem crosses_iff_either
    (h : ∀ s ∈ r.segments, Point.Balanced s.p0 s.p1 p ∧ Point.Balanced s.p0 s.p1 q) :
    r.crosses m n p q = true ↔ ∃ s : Segment, (s ∈ r.segments ∨ s.reverse ∈ r.segments) ∧
      s.contains m = false ∧ s.contains n = false ∧
        Point.crossing p q s.p0 s.p1 r.settings.tolerance = true := by
  rw [crosses_iff]
  constructor
  · rintro ⟨s, hs, hcrossing⟩
    exact ⟨s, .inl hs, hcrossing⟩
  · rintro ⟨s, hs | hs, hm, hn, hcrossing⟩
    · exact ⟨s, hs, hm, hn, hcrossing⟩
    · obtain ⟨hp, hq⟩ := h s.reverse hs
      refine ⟨s.reverse, hs, ?_, ?_, ?_⟩
      · rwa [s.contains_reverse]
      · rwa [s.contains_reverse]
      · exact (Point.crossing_reverse_right ht hp hq).symm.trans hcrossing

/-- Rings with the same segments up to direction are crossed alike where their
segments can be reversed. -/
theorem crosses_congr_reverse (r' : Ring)
    (htolerance : r'.settings.tolerance = r.settings.tolerance)
    (hsegments : ∀ s : Segment, (s ∈ r'.segments ∨ s.reverse ∈ r'.segments) ↔
      (s ∈ r.segments ∨ s.reverse ∈ r.segments))
    (h : ∀ s ∈ r.segments, Point.Balanced s.p0 s.p1 p ∧ Point.Balanced s.p0 s.p1 q) :
    r'.crosses m n p q = r.crosses m n p q := by
  have h' (s : Segment) (hs : s ∈ r'.segments) :
      Point.Balanced s.p0 s.p1 p ∧ Point.Balanced s.p0 s.p1 q := by
    obtain hs | hs := (hsegments s).mp (.inl hs)
    · exact h s hs
    · exact ⟨(h _ hs).1.symm, (h _ hs).2.symm⟩
  rw [Bool.eq_iff_iff, crosses_iff_either (by rwa [htolerance]) h', crosses_iff_either ht h,
    htolerance]
  exact exists_congr fun s => and_congr_left fun _ => hsegments s

/-- What the crossings of a ring know of directions. -/
structure DirectionSpec (r : Ring) : Prop where
  balanced : ∀ a b c, Point.ExactArea a b c → Point.ExactArea b a c → Point.Balanced a b c
  exchanged : ∀ a0 a1 b0 b1, Point.crossing b0 b1 a0 a1 r.settings.tolerance =
    Point.crossing a0 a1 b0 b1 r.settings.tolerance
  first_reversed : ∀ a0 a1 b0 b1, Point.Balanced a0 a1 b0 → Point.Balanced a0 a1 b1 →
    Point.crossing a1 a0 b0 b1 r.settings.tolerance =
      Point.crossing a0 a1 b0 b1 r.settings.tolerance
  second_reversed : ∀ a0 a1 b0 b1, Point.Balanced b0 b1 a0 → Point.Balanced b0 b1 a1 →
    Point.crossing a0 a1 b1 b0 r.settings.tolerance =
      Point.crossing a0 a1 b0 b1 r.settings.tolerance
  candidate_reversed : ∀ m n p q,
    (∀ s ∈ r.segments, Point.Balanced p q s.p0 ∧ Point.Balanced p q s.p1) →
    r.crosses n m q p = r.crosses m n p q
  stored_reversed : ∀ r' : Ring, r'.settings.tolerance = r.settings.tolerance →
    (∀ s : Segment, (s ∈ r'.segments ∨ s.reverse ∈ r'.segments) ↔
      (s ∈ r.segments ∨ s.reverse ∈ r.segments)) →
    ∀ m n p q, (∀ s ∈ r.segments, Point.Balanced s.p0 s.p1 p ∧ Point.Balanced s.p0 s.p1 q) →
    r'.crosses m n p q = r.crosses m n p q
  /-- A condition that is seen from the coordinates. -/
  lattice : ∀ e : ℤ, -537 ≤ e → e ≤ 485 → ∀ a b c, Point.OnLattice e a → Point.OnLattice e b →
    Point.OnLattice e c → Point.Balanced a b c
  /-- Where everything lies on one lattice, directions do not matter at all. -/
  lattice_reversed : ∀ e : ℤ, -537 ≤ e → e ≤ 485 →
    (∀ s ∈ r.segments, Point.OnLattice e s.p0 ∧ Point.OnLattice e s.p1) →
    ∀ m n p q, Point.OnLattice e p → Point.OnLattice e q →
    r.crosses n m q p = r.crosses m n p q ∧
      ∀ r' : Ring, r'.settings.tolerance = r.settings.tolerance →
      (∀ s : Segment, (s ∈ r'.segments ∨ s.reverse ∈ r'.segments) ↔
        (s ∈ r.segments ∨ s.reverse ∈ r.segments)) →
      r'.crosses m n p q = r.crosses m n p q

end Ring

/-- The tolerance of a reachable ring is not negative, and this is all that
directions ask of it. -/
theorem Reachable.direction_spec {r : Ring} (h : Reachable r) : r.DirectionSpec := by
  have ht := Tolerance.nonneg_of_check h.settings_check
  exact {
    balanced a b c := Point.balanced_of_exactArea
    exchanged a0 a1 b0 b1 := Point.crossing_comm a0 a1 b0 b1 _
    first_reversed a0 a1 b0 b1 := Point.crossing_reverse ht
    second_reversed a0 a1 b0 b1 := Point.crossing_reverse_right ht
    candidate_reversed m n p q := Ring.crosses_reverse ht
    stored_reversed r' htolerance hsegments m n p q :=
      Ring.crosses_congr_reverse ht r' htolerance hsegments
    lattice e hlow hhigh a b c := Point.OnLattice.balanced hlow hhigh
    lattice_reversed e hlow hhigh hsegments m n p q hp hq := by
      refine ⟨Ring.crosses_reverse ht fun s hs => ?_, fun r' htolerance hsame =>
        Ring.crosses_congr_reverse ht r' htolerance hsame fun s hs => ?_⟩
      · obtain ⟨h0, h1⟩ := hsegments s hs
        exact ⟨hp.balanced hlow hhigh hq h0, hp.balanced hlow hhigh hq h1⟩
      · obtain ⟨h0, h1⟩ := hsegments s hs
        exact ⟨h0.balanced hlow hhigh h1 hp, h0.balanced hlow hhigh h1 hq⟩ }

/-- The diagonals of a unit square cross in every direction. -/
theorem Reachable.direction_spec_diagonals :
    let zero : Binary64 := ⟨0⟩
    let one : Binary64 := ⟨0x3ff0000000000000⟩
    let r := Ring.empty.run [.pushSegment ⟨⟨1⟩, ⟨2⟩, ⟨one, zero⟩, ⟨zero, one⟩⟩]
    Reachable r ∧ r.DirectionSpec ∧
      r.crosses ⟨4⟩ ⟨3⟩ ⟨one, one⟩ ⟨zero, zero⟩ = r.crosses ⟨3⟩ ⟨4⟩ ⟨zero, zero⟩ ⟨one, one⟩ ∧
      r.crosses ⟨3⟩ ⟨4⟩ ⟨zero, zero⟩ ⟨one, one⟩ = true := by
  intro zero one r
  have hr : Reachable r := Reachable.empty.run _
  have hspec := Reachable.direction_spec hr
  have hzero : real zero.toFloat = 0 :=
    (real_toFloat (show zero.value = .finite false 0 0 by decide +kernel)).trans (by norm_num)
  have hone : real one.toFloat = 1 :=
    (real_toFloat (show one.value = .finite false (2 ^ 52) 1022 by decide +kernel)).trans
      (by norm_num [unit, Binary64.Value.sign, Float.Model.UnpackedFloat.Sign.apply])
  have h0 : FixedPoint 0 25 (real zero.toFloat) zero.toFloat :=
    ⟨by decide +kernel, rfl, ⟨0, by simp [hzero]⟩, by simp [hzero]⟩
  have h1 : FixedPoint 0 25 (real one.toFloat) one.toFloat :=
    ⟨by decide +kernel, rfl, ⟨1, by simp [hone]⟩, by rw [hone]; norm_num⟩
  have hsegments (s : Segment) (hs : s ∈ r.segments) :
      Point.OnLattice 0 s.p0 ∧ Point.OnLattice 0 s.p1 := by
    have hstored : r.segments = #[⟨⟨1⟩, ⟨2⟩, ⟨one, zero⟩, ⟨zero, one⟩⟩] := rfl
    obtain rfl : s = ⟨⟨1⟩, ⟨2⟩, ⟨one, zero⟩, ⟨zero, one⟩⟩ := by simpa [hstored] using hs
    exact ⟨⟨h1, h0⟩, ⟨h0, h1⟩⟩
  have hreversed := hspec.lattice_reversed 0 (by decide) (by decide) hsegments ⟨3⟩ ⟨4⟩
    ⟨zero, zero⟩ ⟨one, one⟩ ⟨h0, h0⟩ ⟨h1, h1⟩
  exact ⟨hr, hspec, hreversed.1, by decide +kernel⟩

/-- Two segments cross, and one of them reversed does not cross the other: of `1 - 2 ^ 54`
the `1` is lost, so that from its far end both points seem to lie on the line. -/
theorem Point.crossing_reverse_ne :
    let zero : Binary64 := ⟨0⟩
    let one : Binary64 := ⟨0x3ff0000000000000⟩
    let far : Binary64 := ⟨0x4350000000000000⟩
    let s : Segment := ⟨⟨1⟩, ⟨2⟩, ⟨one, zero⟩, ⟨zero, one⟩⟩
    let long : Segment := ⟨⟨3⟩, ⟨4⟩, ⟨zero, zero⟩, ⟨far, far⟩⟩
    let r := Ring.empty.run [.insertSegment s]
    (∀ p ∈ [s.p0, s.p1, long.p0, long.p1], p.isFinite = true) ∧ Reachable r ∧
      crossing long.p0 long.p1 s.p0 s.p1 r.settings.tolerance = true ∧
      crossing long.p1 long.p0 s.p0 s.p1 r.settings.tolerance = false ∧
      r.crosses ⟨3⟩ ⟨4⟩ long.p0 long.p1 = true ∧ r.crosses ⟨4⟩ ⟨3⟩ long.p1 long.p0 = false ∧
      (Ring.empty.run [.insertSegment long]).crosses ⟨1⟩ ⟨2⟩ s.p0 s.p1 = true ∧
      (Ring.empty.run [.insertSegment long.reverse]).crosses ⟨1⟩ ⟨2⟩ s.p0 s.p1 = false := by
  intro zero one far s long r
  exact ⟨by decide +kernel, Reachable.empty.run _, by decide +kernel, by decide +kernel,
    by decide +kernel, by decide +kernel, by decide +kernel, by decide +kernel⟩

end MeshRing
