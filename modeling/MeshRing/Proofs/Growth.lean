import MeshRing.Proofs.Interleavings
import MeshRing.Proofs.Places

/-! Edits only append records, so what a ring knows it goes on knowing. Only the place of a
node that no segment ends can change, once and for all. -/

namespace MeshRing

namespace Ring

/-- The ring `s` has the settings of `r`, and its records after those of `r`. -/
structure Extends (r s : Ring) : Prop where
  settings : s.settings = r.settings
  segments : r.segments.toList <+: s.segments.toList
  triangles : r.triangles.toList <+: s.triangles.toList

theorem extends_run (r : Ring) (es : List Edit) : r.Extends (r.run es) where
  settings := r.settings_run es
  segments := ⟨_, (r.segments_run es).symm⟩
  triangles := ⟨_, (r.triangles_run es).symm⟩

section

variable {α : Type} {as bs : Array α} (h : as.toList <+: bs.toList)
include h

theorem getElem?_of_appended {i : Nat} (hi : i < as.size) : bs[i]? = as[i]? := by
  rw [← Array.getElem?_toList, ← Array.getElem?_toList]
  exact (List.prefix_iff_getElem?.mp h i hi).trans (List.getElem?_eq_getElem hi).symm

theorem mem_of_appended {a : α} (ha : a ∈ as) : a ∈ bs :=
  Array.mem_toList_iff.mp (h.subset (Array.mem_toList_iff.mpr ha))

end

variable {r s : Ring} {n : Node} {p : Point}

/-! ## What stays known -/

namespace Extends

theorem crosses (h : r.Extends s) {m : Node} {q : Point} (hc : r.crosses m n p q = true) :
    s.crosses m n p q = true := by
  rw [crosses_iff] at hc ⊢
  obtain ⟨a, ha, hc⟩ := hc
  rw [h.settings]
  exact ⟨a, mem_of_appended h.segments ha, hc⟩

section

variable (h : r.Extends s) (hr : r.Indexed) (hs : s.Indexed)
include h hr hs

theorem joins {m : Node} (hj : r.joins m n = true) : s.joins m n = true := by
  obtain ⟨a, ha, hp⟩ := (hr.joins_iff m n).mp hj
  exact (hs.joins_iff m n).mpr ⟨a, mem_of_appended h.segments ha, hp⟩

theorem spans {l m : Node} (hj : r.spans l m n = true) : s.spans l m n = true := by
  obtain ⟨t, ht, hp⟩ := (hr.spans_iff l m n).mp hj
  exact (hs.spans_iff l m n).mpr ⟨t, mem_of_appended h.triangles ht, hp⟩

theorem endPlace? (hp : r.endPlace? n = some p) : s.endPlace? n = some p := by
  obtain ⟨tail, htail⟩ := h.segments
  rw [hr.endPlace?_eq] at hp
  rw [hs.endPlace?_eq, ← htail, List.flatMap_append, List.lookup_append, hp, Option.some_or]

theorem getElem?_apexes (hp : r.apexes[n]? = some p) : s.apexes[n]? = some p := by
  obtain ⟨tail, htail⟩ := h.triangles
  rw [hr.getElem?_apexes] at hp
  rw [hs.getElem?_apexes, ← htail, List.map_append, List.lookup_append, hp, Option.some_or]

/-- A node keeps its place unless a segment end has come in between. -/
theorem place? (hp : r.place? n = some p) : s.place? n = some ((s.endPlace? n).getD p) := by
  rw [Ring.place?] at hp ⊢
  cases he : r.endPlace? n with
  | some q =>
      rw [he, Option.some_or] at hp
      rw [h.endPlace? hr hs he, Option.some_or, Option.getD_some]
  | none =>
      rw [he, Option.none_or] at hp
      rw [h.getElem?_apexes hr hs hp]
      cases s.endPlace? n <;> rfl

theorem getD_endPlace? (hp : r.place? n = some p) (hn : ∃ a ∈ r.segments, n ∈ a.nodes) :
    (s.endPlace? n).getD p = p := by
  obtain ⟨q, hq⟩ := Option.isSome_iff_exists.mp (hr.isSome_endPlace?_iff.mpr hn)
  have hqp : q = p := Option.some.inj ((place?_of_endPlace? hq).symm.trans hp)
  rw [h.endPlace? hr hs hq, Option.getD_some, hqp]

/-- A place that has changed was an apex and is a segment end now. -/
theorem ends_of_place?_ne {q : Point} (hp : r.place? n = some p) (hq : s.place? n = some q)
    (hne : q ≠ p) : (∀ a ∈ r.segments, n ∉ a.nodes) ∧ s.endPlace? n = some q := by
  have heq : (s.endPlace? n).getD p = q := Option.some.inj ((h.place? hr hs hp).symm.trans hq)
  constructor
  · intro a ha hn
    exact hne (heq.symm.trans (h.getD_endPlace? hr hs hp ⟨a, ha, hn⟩))
  · cases he : s.endPlace? n with
    | none => exact absurd (by rw [← heq, he, Option.getD_none]) hne
    | some q' => rw [← heq, he, Option.getD_some]

/-- A triangle keeps its corners, up to a base node whose place was an apex. -/
theorem corners {i : Nat} {c : Corners} (hc : r.corners i = .ok c) :
    ∃ t, r.triangles[i]? = some t ∧ r.place? t.n0 = some c.a ∧ r.place? t.n1 = some c.b ∧
      s.corners i = .ok ⟨(s.endPlace? t.n0).getD c.a, (s.endPlace? t.n1).getD c.b, c.c⟩ := by
  obtain ⟨t, a, b, ht, ha, hb, rfl⟩ := corners_eq_ok_iff.mp hc
  have hi : i < r.triangles.size := (Array.getElem?_eq_some_iff.mp ht).1
  refine ⟨t, ht, ha, hb, corners_eq_ok_iff.mpr ⟨t, _, _, ?_, ?_, ?_, rfl⟩⟩
  · rw [getElem?_of_appended h.triangles hi, ht]
  · exact h.place? hr hs ha
  · exact h.place? hr hs hb

end

end Extends

/-- Along a run, the place of a node is what it was up to some edit, and then what it is in
the end. The induction is on the run: an edit that moves the node ends a segment there,
which holds its place from then on. -/
theorem place?_changes_once {r : Ring} (hr : Reachable r) {n : Node} {p : Point}
    (hp : r.place? n = some p) (es : List Edit) : ∃ k, ∀ j,
      (r.run (es.take j)).place? n = if j ≤ k then some p else (r.run es).place? n := by
  induction es generalizing r with
  | nil => exact ⟨0, by simp [hp]⟩
  | cons e es ih =>
      have he := hr.apply e
      by_cases hkept : (r.apply e).ring.place? n = some p
      · obtain ⟨k, hk⟩ := ih he hkept
        refine ⟨k + 1, fun j => ?_⟩
        cases j with
        | zero => simp [hp]
        | succ j => simpa using hk j
      · have hstep : r.Extends (r.apply e).ring := r.extends_run [e]
        have hq := hstep.place? hr.indexed he.indexed hp
        obtain ⟨_, hend⟩ :=
          hstep.ends_of_place?_ne hr.indexed he.indexed hp hq fun heq =>
            hkept (hq.trans (by rw [heq]))
        have hsettled (es : List Edit) := place?_of_endPlace?
          (((r.apply e).ring.extends_run es).endPlace? he.indexed (he.run es).indexed hend)
        refine ⟨0, fun j => ?_⟩
        cases j with
        | zero => simp [hp]
        | succ j => simp [hsettled]

/-! ## Growth along a run -/

/-- A list of records of one kind grows with every accepted edit of that kind, and no other. -/
theorem length_run {α : Type} (view : Ring → List α) {record? : Edit → Option α} (kind : RecordKind)
    (hkind : ∀ e, (record? e).isSome = decide (e.kind = kind))
    (hview : ∀ r es, view (r.run es) = view r ++ (r.acceptedEdits es).filterMap record?)
    (r : Ring) (es : List Edit) :
    (view (r.run es)).length =
      (view r).length + (r.acceptedEdits es).countP (fun e => e.kind = kind) := by
  rw [hview, List.length_append, List.length_filterMap_eq_countP]
  simp only [hkind]

theorem size_segments_run (r : Ring) (es : List Edit) : (r.run es).segments.size =
    r.segments.size + (r.acceptedEdits es).countP (fun e => e.kind = .segment) :=
  length_run (·.segments.toList) .segment (fun e => by cases e <;> rfl) segments_run r es

theorem size_triangles_run (r : Ring) (es : List Edit) : (r.run es).triangles.size =
    r.triangles.size + (r.acceptedEdits es).countP (fun e => e.kind = .triangle) :=
  length_run (·.triangles.toList) .triangle (fun e => by cases e <;> rfl) triangles_run r es

/-- What a ring still has and still answers after more edits, accepted or refused. -/
structure GrowthSpec (r : Ring) (es : List Edit) : Prop where
  settings_eq : (r.run es).settings = r.settings
  size_segments : (r.run es).segments.size =
    r.segments.size + (r.acceptedEdits es).countP (fun e => e.kind = .segment)
  size_triangles : (r.run es).triangles.size =
    r.triangles.size + (r.acceptedEdits es).countP (fun e => e.kind = .triangle)
  segments_eq : (r.run es).segments.toList =
    r.segments.toList ++ (r.acceptedEdits es).filterMap Edit.segment?
  triangles_eq : (r.run es).triangles.toList =
    r.triangles.toList ++ (r.acceptedEdits es).filterMap Edit.triangle?
  segmentAt_eq : ∀ i < r.segments.size, (r.run es).segmentAt i = r.segmentAt i
  triangleAt_eq : ∀ i < r.triangles.size, (r.run es).triangleAt i = r.triangleAt i
  joins : ∀ m n, r.joins m n = true → (r.run es).joins m n = true
  spans : ∀ l m n, r.spans l m n = true → (r.run es).spans l m n = true
  crosses : ∀ m n p q, r.crosses m n p q = true → (r.run es).crosses m n p q = true
  endPlace? : ∀ n p, r.endPlace? n = some p → (r.run es).endPlace? n = some p
  place? : ∀ n p, r.place? n = some p → ∃ q, (r.run es).place? n = some q ∧
    (q ≠ p → (∀ a ∈ r.segments, n ∉ a.nodes) ∧ ∃ a ∈ (r.run es).segments, n ∈ a.nodes)
  /-- The place is the old one up to some edit and the last one from then on. -/
  place?_changes_once : ∀ n p, r.place? n = some p → ∃ k, ∀ j,
    (r.run (es.take j)).place? n = if j ≤ k then some p else (r.run es).place? n
  corners : ∀ i c, r.corners i = .ok c → ∃ t, r.triangles[i]? = some t ∧
    ∃ c', (r.run es).corners i = .ok c' ∧ c'.c = c.c ∧
      ((∃ a ∈ r.segments, t.n0 ∈ a.nodes) → (∃ a ∈ r.segments, t.n1 ∈ a.nodes) → c' = c)

end Ring

/-- Growth of a reachable ring, whose indexes are those of its records before
and after the run. -/
theorem Reachable.growth_spec {r : Ring} (h : Reachable r) (es : List Edit) : r.GrowthSpec es := by
  have hext := r.extends_run es
  have hr := h.indexed
  have hs := (h.run es).indexed
  exact {
    settings_eq := r.settings_run es
    size_segments := r.size_segments_run es
    size_triangles := r.size_triangles_run es
    segments_eq := r.segments_run es
    triangles_eq := r.triangles_run es
    segmentAt_eq i hi := by
      rw [Ring.segmentAt, Ring.getElem?_of_appended hext.segments hi, Ring.segmentAt,
        Array.getElem?_eq_getElem hi]
    triangleAt_eq i hi := by
      rw [Ring.triangleAt, Ring.getElem?_of_appended hext.triangles hi, Ring.triangleAt,
        Array.getElem?_eq_getElem hi]
    joins _ _ := hext.joins hr hs
    spans _ _ _ := hext.spans hr hs
    crosses _ _ _ _ := hext.crosses
    endPlace? _ _ := hext.endPlace? hr hs
    place? n p hp := by
      have hq := hext.place? hr hs hp
      refine ⟨_, hq, fun hne => ?_⟩
      obtain ⟨hbefore, hafter⟩ := hext.ends_of_place?_ne hr hs hp hq hne
      exact ⟨hbefore, hs.isSome_endPlace?_iff.mp (Option.isSome_iff_exists.mpr ⟨_, hafter⟩)⟩
    place?_changes_once _ _ hp := Ring.place?_changes_once h hp es
    corners i c hc := by
      obtain ⟨t, ht, ha, hb, hc'⟩ := hext.corners hr hs hc
      refine ⟨t, ht, _, hc', rfl, fun h0 h1 => ?_⟩
      rw [hext.getD_endPlace? hr hs ha h0, hext.getD_endPlace? hr hs hb h1] }

/-- An apex is superseded by a later segment end, which the next one leaves in its place.
The triangle over both nodes moves with it, and refused inserts count for nothing. -/
theorem Reachable.growth_spec_superseded :
    let p : Point := ⟨⟨0⟩, ⟨0⟩⟩
    let q : Point := ⟨⟨1⟩, ⟨0x7ff8000000000001⟩⟩
    let r := Ring.empty.run
      [.pushTriangle ⟨⟨1⟩, ⟨1⟩, ⟨1⟩, p⟩, .pushSegment ⟨⟨2⟩, ⟨3⟩, p, q⟩]
    let es : List Edit := [.insertSegment ⟨⟨1⟩, ⟨1⟩, p, p⟩, .pushSegment ⟨⟨1⟩, ⟨2⟩, q, q⟩,
      .pushSegment ⟨⟨1⟩, ⟨3⟩, p, p⟩]
    Reachable r ∧ r.GrowthSpec es ∧ r.place? ⟨1⟩ = some p ∧ (r.run es).place? ⟨1⟩ = some q ∧
      r.corners 0 = .ok ⟨p, p, p⟩ ∧ (r.run es).corners 0 = .ok ⟨q, q, p⟩ ∧
      (r.run es).segments.size = 3 := by
  intro p q r es
  have h : Reachable r := Reachable.empty.run _
  exact ⟨h, Reachable.growth_spec h es, by decide +kernel, by decide +kernel, by decide +kernel,
    by decide +kernel, by decide +kernel⟩

end MeshRing
