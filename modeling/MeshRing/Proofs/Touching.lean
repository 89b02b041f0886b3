import MeshRing.Proofs.Arithmetic
import MeshRing.Proofs.Indexes
import MeshRing.Proofs.LargerTolerances

/-! A bad, a too short and a touching segment all make a quotient of the side test zero or
NaN, and neither is beyond the tolerance. -/

namespace MeshRing

open Arithmetic

namespace Tolerance

/-- A point whose distance is zero or NaN lies on the line. -/
theorem ofDistance_of_sideless {d t : Float} (ht : 0 ≤ t) (hd : Sideless d.toModel.unpack) :
    Side.ofDistance d t = .on := by
  have hneg : -t ≤ 0 := le_trans (neg_le_neg ht) (by decide)
  have hleft : ¬ d > t := fun h => not_pos_of_sideless hd (lt_of_le_of_lt ht h)
  have hright : ¬ d < -t := fun h => not_neg_of_sideless hd (lt_of_lt_of_le h hneg)
  rw [Side.ofDistance, if_neg hleft, if_neg hright]

end Tolerance

namespace Point

open Tolerance

variable {a b c : Point} {t : Float}

theorem side_of_le (h : a.distance b ≤ t) : side a b c t = .on :=
  if_pos h

theorem side_of_not_le (h : ¬ a.distance b ≤ t) :
    side a b c t = .ofDistance (doubleArea a b c / a.distance b) t :=
  if_neg h

/-! ## Points at an end of the line -/

theorem numEq_iff {p q : Point} : p.numEq q = true ↔
    (p.u.toFloat == q.u.toFloat) = true ∧ (p.v.toFloat == q.v.toFloat) = true := by
  rw [numEq, Bool.and_eq_true]
  rfl

theorem sideless_doubleArea_start (h : c.numEq a = true) :
    Sideless (doubleArea a b c).toModel.unpack := by
  obtain ⟨hu, hv⟩ := numEq_iff.mp h
  have hdu : Sideless (c - a).du.toModel.unpack := (Agree.of_beq hu).sideless_sub
  have hdv : Sideless (c - a).dv.toModel.unpack := (Agree.of_beq hv).sideless_sub
  rw [doubleArea, Offset.cross, mul_swap, mul_swap (b - a).dv]
  exact ((hdv.mul _).repacked.sub (hdu.mul _).repacked).repacked

/-- At the far end both products are the same number, rounded or not, and their
difference is zero or NaN. -/
theorem sideless_doubleArea_end (h : c.numEq b = true) :
    Sideless (doubleArea a b c).toModel.unpack := by
  obtain ⟨hu, hv⟩ := numEq_iff.mp h
  have hdu : Agree (c - a).du (b - a).du := (Agree.of_beq hu).sub rfl
  have hdv : Agree (c - a).dv (b - a).dv := (Agree.of_beq hv).sub rfl
  rw [doubleArea, Offset.cross, mul_swap (b - a).dv]
  have hleft : Agree ((b - a).du * (c - a).dv) ((b - a).du * (b - a).dv) := Agree.mul rfl hdv
  have hright : Agree ((c - a).du * (b - a).dv) ((b - a).du * (b - a).dv) := hdu.mul rfl
  exact (hleft.trans hright.symm).sideless_sub

/-! ## Lines that have sides -/

theorem isFinite_of_distance (h : (a.distance b).isFinite = true) :
    a.isFinite = true ∧ b.isFinite = true := by
  obtain ⟨hdu, hdv⟩ := isFinite_of_add (isFinite_of_sqrt h)
  obtain ⟨hau, hbu⟩ := isFinite_of_sub (isFinite_of_mul hdu).1
  obtain ⟨hav, hbv⟩ := isFinite_of_sub (isFinite_of_mul hdv).1
  exact ⟨Bool.and_eq_true_iff.mpr ⟨hau, hav⟩, Bool.and_eq_true_iff.mpr ⟨hbu, hbv⟩⟩

/-- A line along which some point has a side is long enough, but not too long, to
have a direction. -/
theorem of_side_ne_on (ht : 0 ≤ t) (h : side a b c t ≠ .on) :
    (a.distance b).isFinite = true ∧ t < a.distance b ∧
      ¬ Sideless (doubleArea a b c).toModel.unpack := by
  by_cases hshort : a.distance b ≤ t
  · exact absurd (side_of_le hshort) h
  · rw [side_of_not_le hshort] at h
    have hquotient : ¬ Sideless (doubleArea a b c / a.distance b).toModel.unpack :=
      fun hs => h (ofDistance_of_sideless ht hs)
    have hfinite : (a.distance b).isFinite = true := by
      by_contra hinfinite
      exact hquotient (sideless_div _ (Bool.eq_false_iff.mpr hinfinite)).repacked
    have hlong : t < a.distance b :=
      lt_of_not_le (exists_rank?_of_isFinite hfinite) (exists_rank?_of_le ht) hshort
    exact ⟨hfinite, hlong, fun hs => hquotient (hs.div _).repacked⟩

/-- Points on both sides of a line are not at its ends. -/
theorem of_separates {p q : Point} (ht : 0 ≤ t) (h : separates a b p q t = true) :
    (a.distance b).isFinite = true ∧ t < a.distance b ∧
      ∀ x ∈ [p, q], ∀ y ∈ [a, b], x.numEq y = false := by
  have hends (x : Point) (hx : side a b x t ≠ .on) : ∀ y ∈ [a, b], x.numEq y = false := by
    obtain ⟨-, -, harea⟩ := of_side_ne_on ht hx
    have hstart : x.numEq a = false :=
      Bool.eq_false_iff.mpr fun h => harea (sideless_doubleArea_start h)
    have hend : x.numEq b = false :=
      Bool.eq_false_iff.mpr fun h => harea (sideless_doubleArea_end h)
    simp [hstart, hend]
  obtain ⟨hp, hq⟩ := Side.ne_on_of_opposite h
  obtain ⟨hfinite, hlong, -⟩ := of_side_ne_on ht hp
  refine ⟨hfinite, hlong, fun x hx => hends x ?_⟩
  obtain rfl | rfl := List.mem_pair.mp hx
  · exact hp
  · exact hq

end Point

/-! ## Rivals -/

/-- A segment that the one from `p` at node `m` to `q` at node `n` may cross. -/
structure Segment.Rival (s : Segment) (m n : Node) (p q : Point) (tolerance : Float) : Prop where
  nodes : ∀ k ∈ [m, n], k ∉ s.nodes
  finite : ∀ x ∈ [p, q, s.p0, s.p1], x.isFinite = true
  lengths : ∀ d ∈ [p.distance q, s.p0.distance s.p1], d.isFinite = true ∧ tolerance < d
  ends : ∀ x ∈ [p, q], ∀ y ∈ [s.p0, s.p1], x.numEq y = false

theorem Segment.contains_eq_false_iff {s : Segment} {n : Node} :
    s.contains n = false ↔ n ∉ s.nodes := by
  simp [contains]

/-- Whatever a segment crosses is a rival of it. -/
theorem Segment.rival_of_crossing {s : Segment} {m n : Node} {p q : Point} {t : Float} (ht : 0 ≤ t)
    (hnodes : ∀ k ∈ [m, n], k ∉ s.nodes) (h : Point.crossing p q s.p0 s.p1 t = true) :
    s.Rival m n p q t := by
  obtain ⟨hs, hc⟩ := Bool.and_eq_true_iff.mp h
  obtain ⟨hsfinite, hslong, hends⟩ := Point.of_separates ht hs
  obtain ⟨hcfinite, hclong, -⟩ := Point.of_separates ht hc
  obtain ⟨hp, hq⟩ := Point.isFinite_of_distance hcfinite
  obtain ⟨h0, h1⟩ := Point.isFinite_of_distance hsfinite
  exact {
    nodes := hnodes
    finite := by simp [hp, hq, h0, h1]
    lengths := by simp [hcfinite, hclong, hsfinite, hslong]
    ends := hends }

namespace Ring

variable {r : Ring}

/-- A ring is crossed at rivals only. -/
theorem crosses_iff_rival (ht : 0 ≤ r.settings.tolerance) {m n : Node} {p q : Point} :
    r.crosses m n p q = true ↔ ∃ s ∈ r.segments, s.Rival m n p q r.settings.tolerance ∧
      Point.crossing p q s.p0 s.p1 r.settings.tolerance = true := by
  rw [crosses_iff]
  refine exists_congr fun s => and_congr_right fun _ => ?_
  rw [Segment.contains_eq_false_iff, Segment.contains_eq_false_iff]
  constructor
  · rintro ⟨hm, hn, hcrossing⟩
    exact ⟨Segment.rival_of_crossing ht (by simpa using ⟨hm, hn⟩) hcrossing, hcrossing⟩
  · rintro ⟨hrival, hcrossing⟩
    exact ⟨hrival.nodes m (by simp), hrival.nodes n (by simp), hcrossing⟩

/-- Rings with the same rivals, however often and in whichever order, are crossed alike. -/
theorem crosses_congr_rivals (ht : 0 ≤ r.settings.tolerance) (r' : Ring)
    (htolerance : r'.settings.tolerance = r.settings.tolerance) {m n : Node} {p q : Point}
    (h : ∀ s : Segment, s.Rival m n p q r.settings.tolerance → (s ∈ r'.segments ↔ s ∈ r.segments)) :
    r'.crosses m n p q = r.crosses m n p q := by
  rw [Bool.eq_iff_iff, crosses_iff_rival ht, crosses_iff_rival (by rwa [htolerance]), htolerance]
  refine exists_congr fun s => and_congr_left fun hs => ?_
  exact h s hs.1

/-- What the crossings of a ring depend on. -/
structure RivalSpec (r : Ring) : Prop where
  rival : ∀ m n p q, r.crosses m n p q = true → ∃ s ∈ r.segments,
    s.Rival m n p q r.settings.tolerance ∧
      Point.crossing p q s.p0 s.p1 r.settings.tolerance = true
  /-- Segments that are no rivals can be left out. -/
  left_out : ∀ m n p q (keep : Segment → Bool),
    (∀ s ∈ r.segments, s.Rival m n p q r.settings.tolerance → keep s = true) →
    (ofRecords r.settings (r.segments.filter keep) r.triangles).crosses m n p q = r.crosses m n p q
  /-- Segments can be stored in another order, and repeatedly. -/
  reordered : ∀ m n p q (segments : Array Segment), (∀ s, s ∈ segments ↔ s ∈ r.segments) →
    (ofRecords r.settings segments r.triangles).crosses m n p q = r.crosses m n p q
  /-- All at once, and in any ring with the same tolerance. -/
  congr : ∀ m n p q (r' : Ring), r'.settings.tolerance = r.settings.tolerance →
    (∀ s : Segment, s.Rival m n p q r.settings.tolerance → (s ∈ r'.segments ↔ s ∈ r.segments)) →
    r'.crosses m n p q = r.crosses m n p q

end Ring

/-- The crossings of a reachable ring depend on the rivals alone. -/
theorem Reachable.rival_spec {r : Ring} (h : Reachable r) : r.RivalSpec := by
  have ht := Tolerance.nonneg_of_check h.settings_check
  exact {
    rival m n p q := (Ring.crosses_iff_rival ht).mp
    left_out m n p q keep hkeep :=
      Ring.crosses_congr_rivals ht (.ofRecords _ (r.segments.filter keep) _) rfl fun s hs =>
        Array.mem_filter.trans ⟨And.left, fun hmem => ⟨hmem, hkeep s hmem hs⟩⟩
    reordered m n p q segments hsegments :=
      Ring.crosses_congr_rivals ht (.ofRecords _ segments _) rfl fun s _ => hsegments s
    congr m n p q r' htolerance := Ring.crosses_congr_rivals ht r' htolerance }

/-- Of four segments that a long one meets, it crosses the one that is none of these: at
infinity, at the end of the long one, shorter than the tolerance. -/
theorem Reachable.rival_spec_touching :
    let zero : Binary64 := ⟨0⟩
    let two : Binary64 := ⟨0x4000000000000000⟩
    let four : Binary64 := ⟨0x4010000000000000⟩
    let below : Point := ⟨two, ⟨0xc000000000000000⟩⟩
    let above : Point := ⟨two, two⟩
    let others : List Edit := [.pushSegment ⟨⟨1⟩, ⟨2⟩, below, ⟨two, ⟨0x7ff0000000000000⟩⟩⟩,
      .pushSegment ⟨⟨1⟩, ⟨2⟩, ⟨zero, zero⟩, above⟩, .pushSegment ⟨⟨1⟩, ⟨2⟩, above, above⟩]
    let r := Ring.empty.run others
    let s := r.run [.pushSegment ⟨⟨1⟩, ⟨2⟩, below, above⟩]
    Reachable r ∧ Reachable s ∧ s.RivalSpec ∧
      r.crosses ⟨3⟩ ⟨4⟩ ⟨zero, zero⟩ ⟨four, zero⟩ = false ∧
      s.crosses ⟨3⟩ ⟨4⟩ ⟨zero, zero⟩ ⟨four, zero⟩ = true := by
  intro zero two four below above others r s
  have hr : Reachable r := Reachable.empty.run others
  have hs : Reachable s := hr.run _
  exact ⟨hr, hs, Reachable.rival_spec hs, by decide +kernel, by decide +kernel⟩

end MeshRing
