import MeshRing.Proofs.Reachable

/-! What the indexes say about a node is what a scan of the records finds. -/

namespace MeshRing

namespace Ring

/-- The first end at the node, where a segment's `n0` comes before its `n1`. -/
def firstEnd? (n : Node) : List Segment → Option Point
  | [] => none
  | s :: rest => if s.n0 = n then some s.p0 else if s.n1 = n then some s.p1 else firstEnd? n rest

def firstApex? (n : Node) : List Triangle → Option Point
  | [] => none
  | t :: rest => if t.n2 = n then some t.apex else firstApex? n rest

theorem lookup_places (n : Node) (segments : List Segment) :
    (segments.flatMap Segment.places).lookup n = firstEnd? n segments := by
  induction segments with
  | nil => rfl
  | cons s rest ih =>
      simp only [List.flatMap_cons, Segment.places, List.cons_append, List.nil_append,
        List.lookup_cons, firstEnd?, ih]
      by_cases h0 : s.n0 = n
      · simp [h0]
      · have hb0 : (n == s.n0) = false := beq_eq_false_iff_ne.mpr (Ne.symm h0)
        by_cases h1 : s.n1 = n
        · simp [h0, h1, hb0]
        · have hb1 : (n == s.n1) = false := beq_eq_false_iff_ne.mpr (Ne.symm h1)
          simp [h0, h1, hb0, hb1]

theorem lookup_place (n : Node) (triangles : List Triangle) :
    (triangles.map Triangle.place).lookup n = firstApex? n triangles := by
  induction triangles with
  | nil => rfl
  | cons t rest ih =>
      simp only [List.map_cons, Triangle.place, List.lookup_cons, firstApex?]
      by_cases h : t.n2 = n
      · simp [h]
      · have hb : (n == t.n2) = false := beq_eq_false_iff_ne.mpr (Ne.symm h)
        simpa [h, hb] using ih

theorem firstEnd?_eq_none_iff {n : Node} {segments : List Segment} :
    firstEnd? n segments = none ↔ ∀ s ∈ segments, n ∉ s.nodes := by
  induction segments with
  | nil => simp [firstEnd?]
  | cons s rest ih =>
      rw [firstEnd?, List.forall_mem_cons, ← ih]
      by_cases h0 : s.n0 = n
      · simp [h0, Segment.nodes]
      · by_cases h1 : s.n1 = n
        · simp [h0, h1, Segment.nodes]
        · simp [h0, h1, Segment.nodes, Ne.symm h0, Ne.symm h1]

theorem firstApex?_eq_none_iff {n : Node} {triangles : List Triangle} :
    firstApex? n triangles = none ↔ ∀ t ∈ triangles, t.n2 ≠ n := by
  induction triangles with
  | nil => simp [firstApex?]
  | cons t rest ih =>
      rw [firstApex?, List.forall_mem_cons, ← ih]
      by_cases h : t.n2 = n <;> simp [h]

/-- A record of the ring places the node: a segment ends there, or a triangle has its apex there. -/
def Placed (r : Ring) (n : Node) : Prop :=
  (∃ s ∈ r.segments, n ∈ s.nodes) ∨ ∃ t ∈ r.triangles, t.n2 = n

/-- The place of a node by scanning the records. -/
def scannedPlace? (r : Ring) (n : Node) : Option Point :=
  (firstEnd? n r.segments.toList).or (firstApex? n r.triangles.toList)

variable {r : Ring}

theorem scannedPlace?_eq_none_iff {n : Node} : r.scannedPlace? n = none ↔ ¬ r.Placed n := by
  rw [scannedPlace?, Option.or_eq_none_iff, firstEnd?_eq_none_iff, firstApex?_eq_none_iff]
  simp [Placed]

theorem scannedPlace?_eq_some_of_placed {n : Node} (h : r.Placed n) :
    ∃ p, r.scannedPlace? n = some p := by
  cases hp : r.scannedPlace? n with
  | none => exact absurd h (scannedPlace?_eq_none_iff.mp hp)
  | some p => exact ⟨p, rfl⟩

theorem Indexed.endPlace?_eq_firstEnd? (h : r.Indexed) (n : Node) :
    r.endPlace? n = firstEnd? n r.segments.toList := by
  rw [h.endPlace?_eq, lookup_places]

/-- Look-up and scan agree, whether the node has a place or not. -/
theorem Indexed.place?_eq (h : r.Indexed) (n : Node) : r.place? n = r.scannedPlace? n := by
  rw [place?, h.endPlace?_eq_firstEnd?, h.getElem?_apexes, lookup_place, scannedPlace?]

theorem place_eq_ok_iff {n : Node} {p : Point} : r.place n = .ok p ↔ r.place? n = some p := by
  unfold place
  cases r.place? n <;> simp

theorem Indexed.place_eq_ok (h : r.Indexed) {n : Node} {p : Point}
    (hp : r.scannedPlace? n = some p) : r.place n = .ok p := by
  rw [place_eq_ok_iff, h.place?_eq, hp]

theorem Indexed.place_eq_error (h : r.Indexed) {n : Node} (hn : ¬ r.Placed n) :
    r.place n = .error (.missingNode n) := by
  rw [place, h.place?_eq, scannedPlace?_eq_none_iff.mpr hn]

theorem Indexed.isSome_endPlace?_iff (h : r.Indexed) {n : Node} :
    (r.endPlace? n).isSome = true ↔ ∃ s ∈ r.segments, n ∈ s.nodes := by
  rw [endPlace?, h.ends, Std.ExtTreeMap.isSome_getElem?_iff_mem, mem_endsOf]

/-- A segment end goes before every apex. -/
theorem place?_of_endPlace? {n : Node} {p : Point} (h : r.endPlace? n = some p) :
    r.place? n = some p := by
  rw [place?, h, Option.some_or]

/-! ## Corners of stored triangles -/

theorem triangleAt_eq_ok_iff {i : Nat} {t : Triangle} :
    r.triangleAt i = .ok t ↔ r.triangles[i]? = some t := by
  unfold triangleAt
  cases r.triangles[i]? <;> simp

theorem corners_eq_ok_iff {i : Nat} {c : Corners} : r.corners i = .ok c ↔
    ∃ t a b, r.triangles[i]? = some t ∧ r.place? t.n0 = some a ∧ r.place? t.n1 = some b ∧
      ⟨a, b, t.apex⟩ = c := by
  simp only [corners, Outcome.bind_eq_ok_iff, triangleAt_eq_ok_iff, place_eq_ok_iff,
    Outcome.pure_eq_ok_iff, exists_and_left]

section

variable {i : Nat} {t : Triangle}

theorem corners_of_size_le (hi : r.triangles.size ≤ i) :
    r.corners i = .error (.indexOutOfRange .triangle i r.triangles.size) := by
  have ht : r.triangles[i]? = none := Array.getElem?_eq_none hi
  rw [corners, triangleAt, ht]
  rfl

theorem corners_of_getElem? (ht : r.triangles[i]? = some t) :
    r.corners i = do
      let a ← r.place t.n0
      let b ← r.place t.n1
      return ⟨a, b, t.apex⟩ := by
  rw [corners, triangleAt, ht]
  rfl

/-- The first node of the base is missed before the second. -/
theorem Indexed.corners_of_not_placed_first (h : r.Indexed) (ht : r.triangles[i]? = some t)
    (h0 : ¬ r.Placed t.n0) : r.corners i = .error (.missingNode t.n0) := by
  rw [corners_of_getElem? ht, h.place_eq_error h0]
  rfl

theorem Indexed.corners_of_not_placed_second (h : r.Indexed) (ht : r.triangles[i]? = some t)
    (h0 : r.Placed t.n0) (h1 : ¬ r.Placed t.n1) : r.corners i = .error (.missingNode t.n1) := by
  obtain ⟨a, ha⟩ := scannedPlace?_eq_some_of_placed h0
  rw [corners_of_getElem? ht, h.place_eq_ok ha, h.place_eq_error h1]
  rfl

theorem Indexed.corners_of_placed (h : r.Indexed) (ht : r.triangles[i]? = some t)
    (h0 : r.Placed t.n0) (h1 : r.Placed t.n1) :
    ∃ a b, r.scannedPlace? t.n0 = some a ∧ r.scannedPlace? t.n1 = some b ∧
      r.corners i = .ok ⟨a, b, t.apex⟩ := by
  obtain ⟨a, ha⟩ := scannedPlace?_eq_some_of_placed h0
  obtain ⟨b, hb⟩ := scannedPlace?_eq_some_of_placed h1
  refine ⟨a, b, ha, hb, corners_eq_ok_iff.mpr ⟨t, a, b, ht, ?_, ?_, rfl⟩⟩
  · rw [h.place?_eq, ha]
  · rw [h.place?_eq, hb]

end

/-- The corners of a triangle by scanning. The three conditions are tried in this order, and
measures fail as the corners do. -/
structure CornersSpec (r : Ring) (i : Nat) : Prop where
  outOfRange_iff :
    r.corners i = .error (.indexOutOfRange .triangle i r.triangles.size) ↔ r.triangles.size ≤ i
  missing_first_iff : ∀ t, r.triangles[i]? = some t →
    (r.corners i = .error (.missingNode t.n0) ↔ ¬ r.Placed t.n0)
  missing_second_iff : ∀ t, r.triangles[i]? = some t → r.Placed t.n0 →
    (r.corners i = .error (.missingNode t.n1) ↔ ¬ r.Placed t.n1)
  eq_ok : ∀ t, r.triangles[i]? = some t → r.Placed t.n0 → r.Placed t.n1 →
    ∃ a b, r.scannedPlace? t.n0 = some a ∧ r.scannedPlace? t.n1 = some b ∧
      r.corners i = .ok ⟨a, b, t.apex⟩
  measures_of_error : ∀ f, r.corners i = .error f →
    r.areaAt i = .error f ∧ r.metricsAt i = .error f ∧ r.validMetricsAt i = .error f
  measures_of_ok : ∀ c, r.corners i = .ok c →
    r.areaAt i = .ok c.area ∧
      r.metricsAt i = (c.metrics r.settings.tolerance).mapError .ofGeometry ∧
      r.validMetricsAt i = (c.validMetrics r.settings.tolerance).mapError .ofGeometry

/-- Each of the four outcomes has a condition of its own, so the conditions are
also necessary. -/
theorem Indexed.corners_spec (h : r.Indexed) (i : Nat) : r.CornersSpec i where
  outOfRange_iff := by
    refine ⟨fun hc => Nat.le_of_not_lt fun hi => ?_, corners_of_size_le⟩
    have ht : r.triangles[i]? = some r.triangles[i] := Array.getElem?_eq_getElem hi
    by_cases h0 : r.Placed r.triangles[i].n0
    · by_cases h1 : r.Placed r.triangles[i].n1
      · obtain ⟨a, b, _, _, hok⟩ := h.corners_of_placed ht h0 h1
        simp [hok] at hc
      · simp [h.corners_of_not_placed_second ht h0 h1] at hc
    · simp [h.corners_of_not_placed_first ht h0] at hc
  missing_first_iff t ht := by
    refine ⟨fun hc h0 => ?_, h.corners_of_not_placed_first ht⟩
    by_cases h1 : r.Placed t.n1
    · obtain ⟨a, b, _, _, hok⟩ := h.corners_of_placed ht h0 h1
      simp [hok] at hc
    · rw [h.corners_of_not_placed_second ht h0 h1] at hc
      simp only [Except.error.injEq, RingFault.missingNode.injEq] at hc
      exact h1 (hc ▸ h0)
  missing_second_iff t ht h0 := by
    refine ⟨fun hc h1 => ?_, h.corners_of_not_placed_second ht h0⟩
    obtain ⟨a, b, _, _, hok⟩ := h.corners_of_placed ht h0 h1
    simp [hok] at hc
  eq_ok t := h.corners_of_placed
  measures_of_error f hf := by
    rw [areaAt, metricsAt, validMetricsAt, hf]
    exact ⟨rfl, rfl, rfl⟩
  measures_of_ok c hc := by
    rw [areaAt, metricsAt, validMetricsAt, hc]
    exact ⟨rfl, rfl, rfl⟩

/-- Look-ups agree with a scan of the records. -/
structure PlaceSpec (r : Ring) : Prop where
  endPlace?_eq : ∀ n, r.endPlace? n = firstEnd? n r.segments.toList
  endPlace?_eq_none_iff : ∀ n, r.endPlace? n = none ↔ ∀ s ∈ r.segments, n ∉ s.nodes
  place?_eq : ∀ n, r.place? n = (firstEnd? n r.segments.toList).or (firstApex? n r.triangles.toList)
  place?_eq_none_iff : ∀ n, r.place? n = none ↔ ¬ r.Placed n
  corners : ∀ i, r.CornersSpec i

end Ring

/-- The indexes of a reachable ring answer as its records do. -/
theorem Reachable.places_by_scan {r : Ring} (h : Reachable r) : r.PlaceSpec where
  endPlace?_eq := h.indexed.endPlace?_eq_firstEnd?
  endPlace?_eq_none_iff n := by
    rw [h.indexed.endPlace?_eq_firstEnd?, Ring.firstEnd?_eq_none_iff]
    simp
  place?_eq := h.indexed.place?_eq
  place?_eq_none_iff n := by
    rw [h.indexed.place?_eq, Ring.scannedPlace?_eq_none_iff]
  corners := h.indexed.corners_spec

/-- A node that was an apex first has its place from a later end, and a loop
places its node once. -/
theorem Reachable.places_by_scan_loop :
    let p : Point := ⟨⟨0⟩, ⟨0⟩⟩
    let q : Point := ⟨⟨0x7ff8000000000001⟩, ⟨0⟩⟩
    let r := Ring.empty.run
      [.pushTriangle ⟨⟨7⟩, ⟨8⟩, ⟨8⟩, p⟩, .pushSegment ⟨⟨7⟩, ⟨7⟩, p, q⟩,
        .pushSegment ⟨⟨9⟩, ⟨8⟩, p, q⟩]
    Reachable r ∧ r.PlaceSpec ∧ r.place? ⟨7⟩ = some p ∧ r.place? ⟨8⟩ = some q ∧
      r.corners 0 = .ok ⟨p, q, p⟩ :=
  have h := Reachable.empty.run _
  have hr := Reachable.places_by_scan h
  have h7 := hr.place?_eq ⟨7⟩
  have h8 := hr.place?_eq ⟨8⟩
  ⟨h, hr, h7, h8, rfl⟩

end MeshRing
