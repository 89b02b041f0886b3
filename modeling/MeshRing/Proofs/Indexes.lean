import MeshRing.Ring.Audit
import MeshRing.Ring.Query

/-! What the indexes of a ring answer, in terms of its records alone. -/

namespace MeshRing.Ring

/-! ## First places -/

/-- A place that is given later does not move a node that has one. -/
theorem getElem?_insertIfNew (index : PlaceMap) (m n : Node) (p : Point) :
    (index.insertIfNew m p)[n]? = index[n]?.or (if n = m then some p else none) := by
  simp only [Std.ExtTreeMap.getElem?_insertIfNew, Std.LawfulEqCmp.compare_eq_iff_eq]
  by_cases hn : n = m
  · subst hn
    by_cases hm : n ∈ index <;> simp [hm]
  · simp [hn, Ne.symm hn]

theorem insertIfNew_of_mem {index : PlaceMap} {n : Node} (h : n ∈ index) (p : Point) :
    index.insertIfNew n p = index := by
  ext1 m
  rw [getElem?_insertIfNew]
  by_cases hm : m = n
  · subst hm
    simp [h]
  · simp [hm]

theorem foldl_insertIfNew_getElem? (places : List (Node × Point)) (index : PlaceMap) (n : Node) :
    (places.foldl (fun index place => index.insertIfNew place.1 place.2) index)[n]? =
      index[n]?.or (places.lookup n) := by
  induction places generalizing index with
  | nil => simp
  | cons place places ih =>
      rw [List.foldl_cons, ih, getElem?_insertIfNew, Option.or_assoc, List.lookup_cons]
      by_cases h : n = place.1
      · simp [h]
      · simp [h, beq_eq_false_iff_ne.mpr h]

/-- The map of first places answers as a scan of the list does. -/
theorem firstPlaces_getElem? (places : List (Node × Point)) (n : Node) :
    (firstPlaces places)[n]? = places.lookup n := by
  simp [firstPlaces, foldl_insertIfNew_getElem?]

theorem endsOf_push (segments : Array Segment) (s : Segment) :
    endsOf (segments.push s) = ((endsOf segments).insertIfNew s.n0 s.p0).insertIfNew s.n1 s.p1 := by
  simp [endsOf, firstPlaces, Segment.places]

theorem apexesOf_push (triangles : Array Triangle) (t : Triangle) :
    apexesOf (triangles.push t) = (apexesOf triangles).insertIfNew t.n2 t.apex := by
  simp [apexesOf, firstPlaces, Triangle.place]

theorem mem_firstPlaces {places : List (Node × Point)} {n : Node} :
    n ∈ firstPlaces places ↔ n ∈ places.map Prod.fst := by
  rw [← Std.ExtTreeMap.isSome_getElem?_iff_mem, firstPlaces_getElem?, List.lookup_isSome_iff]
  simp only [beq_iff_eq, List.mem_map, @eq_comm _ n]

theorem mem_endsOf {segments : Array Segment} {n : Node} :
    n ∈ endsOf segments ↔ ∃ s ∈ segments, n ∈ s.nodes := by
  simp [endsOf, mem_firstPlaces, List.map_flatMap, Segment.places, Segment.nodes]

theorem mem_apexesOf {triangles : Array Triangle} {n : Node} :
    n ∈ apexesOf triangles ↔ ∃ t ∈ triangles, t.n2 = n := by
  simp [apexesOf, mem_firstPlaces, Triangle.place]

/-! ## Key sets -/

theorem insert_of_mem {keys : KeySet} {k : List Node} (h : k ∈ keys) : keys.insert k = keys := by
  ext1 l
  rw [Std.ExtTreeSet.mem_insert, Std.LawfulEqCmp.compare_eq_iff_eq]
  constructor
  · rintro (rfl | hl)
    · exact h
    · exact hl
  · exact .inr

section

variable {α : Type}

theorem ofList_map_push (key : α → List Node) (xs : Array α) (x : α) :
    (.ofList ((xs.push x).toList.map key) : KeySet) =
      (Std.ExtTreeSet.ofList (xs.toList.map key)).insert (key x) := by
  ext1 l
  rw [Std.ExtTreeSet.mem_insert, Std.LawfulEqCmp.compare_eq_iff_eq]
  simp [or_comm, @eq_comm _ (key x)]

/-- Some record spans the nodes exactly when their key is in the set. -/
theorem ascending_mem_ofList_map (nodesOf : α → List Node) {xs : Array α} {nodes : List Node} :
    Node.ascending nodes ∈
        (.ofList (xs.toList.map fun x => Node.ascending (nodesOf x)) : KeySet) ↔
      ∃ x ∈ xs, (nodesOf x).Perm nodes := by
  simp [Node.ascending_eq_iff]

/-- Records may share a key, so there are no more keys than records. -/
theorem size_ofList_map_le (key : α → List Node) (xs : Array α) :
    (.ofList (xs.toList.map key) : KeySet).size ≤ xs.size := by
  have hsize : (.ofList (xs.toList.map key) : KeySet).size ≤ (xs.toList.map key).length :=
    Std.ExtTreeSet.size_ofList_le
  simpa using hsize

end

theorem keysOfSegments_push (segments : Array Segment) (s : Segment) :
    keysOfSegments (segments.push s) = (keysOfSegments segments).insert s.key :=
  ofList_map_push Segment.key segments s

theorem keysOfTriangles_push (triangles : Array Triangle) (t : Triangle) :
    keysOfTriangles (triangles.push t) = (keysOfTriangles triangles).insert t.key :=
  ofList_map_push Triangle.key triangles t

theorem mem_keysOfSegments {segments : Array Segment} {nodes : List Node} :
    Node.ascending nodes ∈ keysOfSegments segments ↔ ∃ s ∈ segments, s.nodes.Perm nodes :=
  ascending_mem_ofList_map Segment.nodes

theorem mem_keysOfTriangles {triangles : Array Triangle} {nodes : List Node} :
    Node.ascending nodes ∈ keysOfTriangles triangles ↔ ∃ t ∈ triangles, t.nodes.Perm nodes :=
  ascending_mem_ofList_map Triangle.nodes

/-! ## Indexed rings -/

/-- Every index of the ring is the one that its records imply. -/
structure Indexed (r : Ring) : Prop where
  ends : r.ends = endsOf r.segments
  apexes : r.apexes = apexesOf r.triangles
  segmentKeys : r.segmentKeys = keysOfSegments r.segments
  triangleKeys : r.triangleKeys = keysOfTriangles r.triangles

/-- The ring of settings and records, every index computed from them. -/
def ofRecords (settings : Settings) (segments : Array Segment) (triangles : Array Triangle) :
    Ring where
  settings := settings
  segments := segments
  triangles := triangles
  ends := endsOf segments
  apexes := apexesOf triangles
  segmentKeys := keysOfSegments segments
  triangleKeys := keysOfTriangles triangles

/-- Nothing but settings and records tells indexed rings apart. -/
theorem Indexed.eq_ofRecords {r : Ring} (h : r.Indexed) :
    r = ofRecords r.settings r.segments r.triangles := by
  obtain ⟨ends, apexes, segmentKeys, triangleKeys⟩ := h
  cases r
  simp_all [ofRecords]

theorem indexed_ofRecords (settings : Settings) (segments : Array Segment)
    (triangles : Array Triangle) : (ofRecords settings segments triangles).Indexed :=
  ⟨rfl, rfl, rfl, rfl⟩

theorem ofRecords_empty (settings : Settings) :
    ofRecords settings #[] #[] = { settings := settings } := rfl

theorem pushSegment_ofRecords (settings : Settings) (segments : Array Segment)
    (triangles : Array Triangle) (s : Segment) :
    ((ofRecords settings segments triangles).pushSegment s).value =
      ofRecords settings (segments.push s) triangles := by
  simp [ofRecords, pushSegment, endsOf_push, keysOfSegments_push]

theorem pushTriangle_ofRecords (settings : Settings) (segments : Array Segment)
    (triangles : Array Triangle) (t : Triangle) :
    ((ofRecords settings segments triangles).pushTriangle t).value =
      ofRecords settings segments (triangles.push t) := by
  simp [ofRecords, pushTriangle, apexesOf_push, keysOfTriangles_push]

section

variable {r : Ring} (h : r.Indexed)
include h

theorem Indexed.pushSegment (s : Segment) : (r.pushSegment s).value.Indexed := by
  rw [h.eq_ofRecords, pushSegment_ofRecords]
  exact indexed_ofRecords _ _ _

theorem Indexed.pushTriangle (t : Triangle) : (r.pushTriangle t).value.Indexed := by
  rw [h.eq_ofRecords, pushTriangle_ofRecords]
  exact indexed_ofRecords _ _ _

theorem Indexed.endPlace?_eq (n : Node) :
    r.endPlace? n = (r.segments.toList.flatMap Segment.places).lookup n := by
  rw [endPlace?, h.ends, endsOf, firstPlaces_getElem?]

theorem Indexed.getElem?_apexes (n : Node) :
    r.apexes[n]? = (r.triangles.toList.map Triangle.place).lookup n := by
  rw [h.apexes, apexesOf, firstPlaces_getElem?]

/-- Membership looks at the nodes of the stored segments, in any order. -/
theorem Indexed.joins_iff (m n : Node) :
    r.joins m n = true ↔ ∃ s ∈ r.segments, s.nodes.Perm [m, n] := by
  rw [joins, h.segmentKeys, ← Std.ExtTreeSet.mem_iff_contains, mem_keysOfSegments]

theorem Indexed.spans_iff (l m n : Node) :
    r.spans l m n = true ↔ ∃ t ∈ r.triangles, t.nodes.Perm [l, m, n] := by
  rw [spans, h.triangleKeys, ← Std.ExtTreeSet.mem_iff_contains, mem_keysOfTriangles]

theorem Indexed.size_segmentKeys_le : r.segmentKeys.size ≤ r.segments.size := by
  rw [h.segmentKeys]
  exact size_ofList_map_le Segment.key r.segments

theorem Indexed.size_triangleKeys_le : r.triangleKeys.size ≤ r.triangles.size := by
  rw [h.triangleKeys]
  exact size_ofList_map_le Triangle.key r.triangles

end

/-! ## Without an index -/

theorem crosses_iff {r : Ring} {m n : Node} {p q : Point} : r.crosses m n p q = true ↔
    ∃ a ∈ r.segments, a.contains m = false ∧ a.contains n = false ∧
      Point.crossing p q a.p0 a.p1 r.settings.tolerance = true := by
  rw [crosses, Array.any_eq_true']
  simp [and_assoc]

end MeshRing.Ring
