import MeshRing.Proofs.Comparisons
import MeshRing.Proofs.Equality

/-! What is found under a larger tolerance is found under a smaller one as well. -/

namespace MeshRing

open Outcome

theorem Side.ne_on_of_opposite {s s' : Side} (h : s.opposite s' = true) : s ≠ .on ∧ s' ≠ .on := by
  cases s <;> cases s' <;> simp_all [opposite]

namespace Tolerance

theorem nonneg_of_check {s : Settings} (h : s.check = .ok ()) : 0 ≤ s.tolerance := by
  obtain ⟨hfinite, hneg⟩ := Settings.check_eq_ok_iff.mp h
  have hzero : (0.0 : Float) = 0 := by decide
  rw [hzero] at hneg
  by_contra hle
  exact hneg (lt_of_not_le exists_rank?_zero (exists_rank?_of_isFinite hfinite) hle)

theorem neg_le_self {t : Float} (ht : 0 ≤ t) : -t ≤ t := by
  have hzero : -(0 : Float) ≤ 0 := by decide
  exact le_trans (le_trans (neg_le_neg ht) hzero) ht

variable {t u : Float} (h : t ≤ u)
include h

/-! ## Sides and crossings -/

/-- A point off the line stays on its side. Without `0 ≤ t` it could be on both. -/
theorem ofDistance_eq (ht : 0 ≤ t) {d : Float} (hd : Side.ofDistance d u ≠ .on) :
    Side.ofDistance d t = Side.ofDistance d u := by
  unfold Side.ofDistance at hd ⊢
  by_cases hleft : u < d
  · rw [if_pos hleft, if_pos (lt_of_le_of_lt h hleft)]
  · rw [if_neg hleft] at hd ⊢
    by_cases hright : d < -u
    · have hright' : d < -t := lt_of_lt_of_le hright (neg_le_neg h)
      have hleft' : ¬ t < d := not_lt_of_lt (lt_of_lt_of_le hright' (neg_le_self ht))
      rw [if_pos hright, if_neg hleft', if_pos hright']
    · rw [if_neg hright] at hd
      exact absurd rfl hd

/-- A point off the line under the larger tolerance is on the same side under the smaller. -/
theorem side_eq (ht : 0 ≤ t) {a b c : Point} (hs : Point.side a b c u ≠ .on) :
    Point.side a b c t = Point.side a b c u := by
  unfold Point.side at hs ⊢
  by_cases hshort : a.distance b ≤ u
  · simp [hshort] at hs
  · have hshort' : ¬ a.distance b ≤ t := fun hd => hshort (le_trans hd h)
    simp only [hshort, hshort', ite_false] at hs ⊢
    exact ofDistance_eq h ht hs

theorem separates_of_larger (ht : 0 ≤ t) {a b p q : Point}
    (hs : Point.separates a b p q u = true) : Point.separates a b p q t = true := by
  unfold Point.separates at hs ⊢
  obtain ⟨hp, hq⟩ := Side.ne_on_of_opposite hs
  rwa [side_eq h ht hp, side_eq h ht hq]

theorem crossing_of_larger (ht : 0 ≤ t) {a0 a1 b0 b1 : Point}
    (hc : Point.crossing a0 a1 b0 b1 u = true) : Point.crossing a0 a1 b0 b1 t = true := by
  unfold Point.crossing at hc ⊢
  rw [Bool.and_eq_true] at hc ⊢
  exact hc.imp (separates_of_larger h ht) (separates_of_larger h ht)

/-! ## Measures -/

theorem edgeLength_within (p q : Point) : Within (edgeLength p q u) (edgeLength p q t) :=
  .ite_error (fun hd => le_trans hd h) (.refl _)

theorem cornerAngle_within (before p after : Point) :
    Within (cornerAngle before p after u) (cornerAngle before p after t) := by
  refine .ite_error (fun hd => ?_) (.refl _)
  simp only [Bool.or_eq_true, decide_eq_true_iff] at hd ⊢
  exact hd.imp (fun hd => le_trans hd h) fun hd => le_trans hd h

theorem metrics_within (c : Corners) : Within (c.metrics u) (c.metrics t) := by
  have hlengths : Within (c.edgeLengths u) (c.edgeLengths t) :=
    (edgeLength_within h _ _).bind fun _ => (edgeLength_within h _ _).bind fun _ =>
      (edgeLength_within h _ _).bind fun _ => .refl _
  have hangles : Within (c.angles u) (c.angles t) :=
    (cornerAngle_within h _ _ _).bind fun _ => (cornerAngle_within h _ _ _).bind fun _ =>
      (cornerAngle_within h _ _ _).bind fun _ => .refl _
  exact hlengths.bind fun _ => hangles.bind fun _ => .refl _

theorem validMetrics_within (c : Corners) : Within (c.validMetrics u) (c.validMetrics t) := by
  refine (metrics_within h c).bind fun m => ?_
  refine .ite_error (fun hd => ?_) (.refl _)
  simp only [Bool.or_eq_true, decide_eq_true_iff] at hd ⊢
  exact hd.imp_right fun hd => le_trans hd h

end Tolerance

namespace Ring

/-- The crossings and measures of `s` are crossings and measures of `r`. -/
structure GrantsSpec (r s : Ring) : Prop where
  crosses : ∀ m n p q, s.crosses m n p q = true → r.crosses m n p q = true
  metricsAt : ∀ i q, s.metricsAt i = .ok q → r.metricsAt i = .ok q
  validMetricsAt : ∀ i q, s.validMetricsAt i = .ok q → r.validMetricsAt i = .ok q

theorem grants_withSettings {r : Ring} {settings : Settings} (ht : 0 ≤ r.settings.tolerance)
    (h : r.settings.tolerance ≤ settings.tolerance) :
    GrantsSpec r (r.withSettings settings) where
  crosses m n p q hc := by
    obtain ⟨a, ha, hm, hn, hcrossing⟩ := crosses_iff.mp hc
    exact crosses_iff.mpr ⟨a, ha, hm, hn, Tolerance.crossing_of_larger h ht hcrossing⟩
  metricsAt i := (Within.refl (r.corners i)).bind fun c =>
    (Tolerance.metrics_within h c).mapError RingFault.ofGeometry
  validMetricsAt i := (Within.refl (r.corners i)).bind fun c =>
    (Tolerance.validMetrics_within h c).mapError RingFault.ofGeometry

end Ring

/-- With the same records, a larger tolerance only takes crossings and measures away. -/
theorem Reachable.larger_tolerance_spec {r s : Ring} (hr : Reachable r) (hs : Reachable s)
    (hsegments : r.segments = s.segments) (htriangles : r.triangles = s.triangles)
    (h : r.settings.tolerance ≤ s.settings.tolerance) : Ring.GrantsSpec r s := by
  rw [hr.indexed.eq_withSettings_of_records hs.indexed hsegments htriangles]
  exact Ring.grants_withSettings (Tolerance.nonneg_of_check hr.settings_check) h

/-- A crossing and a triangle under tolerance one are there under a negative zero, while a
segment at NaN crosses nothing. -/
theorem Reachable.larger_tolerance_spec_crossing :
    let zero : Binary64 := ⟨0⟩
    let two : Binary64 := ⟨0x4000000000000000⟩
    let four : Binary64 := ⟨0x4010000000000000⟩
    let below : Point := ⟨two, ⟨0xc000000000000000⟩⟩
    let above : Point := ⟨two, two⟩
    let es : List Edit := [.pushSegment ⟨⟨1⟩, ⟨2⟩, ⟨zero, zero⟩, ⟨four, zero⟩⟩,
      .pushSegment ⟨⟨5⟩, ⟨6⟩, ⟨zero, ⟨0x7ff8000000000000⟩⟩, above⟩,
      .pushTriangle ⟨⟨1⟩, ⟨2⟩, ⟨3⟩, above⟩]
    let r := Ring.run { settings := { tolerance := -0 } } es
    let s := Ring.run { settings := { tolerance := 1 } } es
    Reachable r ∧ Reachable s ∧ r.segments = s.segments ∧ r.triangles = s.triangles ∧
      r.settings.tolerance ≤ s.settings.tolerance ∧ Ring.GrantsSpec r s ∧
      r.crosses ⟨3⟩ ⟨4⟩ below above = true ∧
      ∃ q, s.metricsAt 0 = .ok q ∧ r.metricsAt 0 = .ok q := by
  intro zero two four below above es r s
  have hr : Reachable r := (Reachable.ofSettings (s := { tolerance := -0 }) rfl).run es
  have hs : Reachable s := (Reachable.ofSettings (s := { tolerance := 1 }) rfl).run es
  have hsegments : r.segments = s.segments := rfl
  have htriangles : r.triangles = s.triangles := rfl
  have hle : r.settings.tolerance ≤ s.settings.tolerance := by decide +kernel
  have h := Reachable.larger_tolerance_spec hr hs hsegments htriangles hle
  have hcrosses : s.crosses ⟨3⟩ ⟨4⟩ below above = true := by decide +kernel
  have hok : (s.metricsAt 0).isOk = true := by decide +kernel
  refine ⟨hr, hs, hsegments, htriangles, hle, h, h.crosses _ _ _ _ hcrosses, ?_⟩
  cases hq : s.metricsAt 0 with
  | error f =>
      rw [hq] at hok
      cases hok
  | ok q => exact ⟨q, rfl, h.metricsAt 0 q hq⟩

end MeshRing
