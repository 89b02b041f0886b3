import MeshRing.Proofs.Loading
import MeshRing.Proofs.Membership
import MeshRing.Proofs.Policies

/-! What a ring is like that started empty and took checked inserts only. -/

namespace MeshRing

def Edit.checked : Edit → Bool
  | .pushSegment _ | .pushTriangle _ => false
  | .insertSegment _ | .insertTriangle _ => true

namespace Ring

/-- An edit leaves the ring alone or stores its record, which then has passed its own check
and, under a strict policy, repeats no stored one. -/
theorem apply_ring_cases (r : Ring) (e : Edit) :
    (r.apply e).ring = r ∨ e.check = .ok () ∧ (r.settings.duplicates = .error → r.meets e = false) ∧
      (r.apply e).ring = (r.store e).value := by
  cases hc : e.check with
  | error f => exact .inl (by rw [apply_of_check_error hc])
  | ok _ =>
      by_cases hr : r.Keeps
      · obtain ⟨_, he⟩ := hr.apply hc
        exact .inr ⟨rfl, fun hd => absurd hd hr, by rw [he]; rfl⟩
      · have hd : r.settings.duplicates = .error := Classical.not_not.mp hr
        cases hm : r.meets e with
        | false => exact .inr ⟨rfl, fun _ => rfl, by rw [apply_of_not_meets hc hm]; rfl⟩
        | true => exact .inl (by rw [apply_of_meets_of_error hd hc hm])

end Ring

/-! ## Records that were checked -/

/-- Records of one kind that pass their check and, where the policy refuses that, do not
repeat each other's nodes. -/
structure Clean {α : Type} (check : α → Except RingFault Unit) (nodes : α → List Node)
    (policy : DuplicatePolicy) (records : List α) : Prop where
  checked : ∀ a ∈ records, check a = .ok ()
  distinct : policy = .error → records.Pairwise fun a b => ¬ (nodes a).Perm (nodes b)

namespace Clean

variable {α : Type} {check : α → Except RingFault Unit} {nodes : α → List Node}
  {policy : DuplicatePolicy} {records : List α}

theorem nil : Clean check nodes policy [] :=
  ⟨List.forall_mem_nil _, fun _ => .nil⟩

theorem concat (h : Clean check nodes policy records) {a : α} (ha : check a = .ok ())
    (hnew : policy = .error → ∀ b ∈ records, ¬ (nodes b).Perm (nodes a)) :
    Clean check nodes policy (records ++ [a]) where
  checked := by
    rw [List.forall_mem_append, List.forall_mem_singleton]
    exact ⟨h.checked, ha⟩
  distinct hp := by
    rw [List.pairwise_append]
    exact ⟨h.distinct hp, List.pairwise_singleton _ _, by simpa using hnew hp⟩

theorem not_perm (h : Clean check nodes policy records) (hp : policy = .error) {i j : Nat} {a b : α}
    (hij : i ≠ j) (ha : records[i]? = some a) (hb : records[j]? = some b) :
    ¬ (nodes a).Perm (nodes b) := by
  obtain ⟨hi, rfl⟩ := List.getElem?_eq_some_iff.mp ha
  obtain ⟨hj, rfl⟩ := List.getElem?_eq_some_iff.mp hb
  have hlt := List.pairwise_iff_getElem.mp (h.distinct hp)
  rcases Nat.lt_or_gt_of_ne hij with hij | hij
  · exact hlt i j hi hj hij
  · exact fun hperm => hlt j i hj hi hij hperm.symm

theorem nodup_keys (h : Clean check nodes policy records) (hp : policy = .error) :
    (records.map fun a => Node.ascending (nodes a)).Nodup := by
  rw [List.Nodup, List.pairwise_map]
  exact (h.distinct hp).imp fun hne heq => hne (Node.ascending_eq_iff.mp heq)

/-- There are as many keys as records. -/
theorem size_keys (h : Clean check nodes policy records) (hp : policy = .error) :
    (.ofList (records.map fun a => Node.ascending (nodes a)) : KeySet).size = records.length := by
  have hkeys : (records.map fun a => Node.ascending (nodes a)).Pairwise
      fun k l => ¬ compare k l = .eq :=
    (h.nodup_keys hp).imp fun hne heq => hne (Std.LawfulEqCmp.eq_of_compare heq)
  rw [Std.ExtTreeSet.size_ofList hkeys, List.length_map]

end Clean

namespace Ring

/-- The records are as checked inserts leave them. -/
structure Checked (r : Ring) : Prop where
  indexed : r.Indexed
  segments : Clean Segment.check Segment.nodes r.settings.duplicates r.segments.toList
  triangles : Clean Triangle.check Triangle.nodes r.settings.duplicates r.triangles.toList

theorem checked_ofRecords (settings : Settings) : (ofRecords settings #[] #[]).Checked :=
  ⟨indexed_ofRecords _ _ _, .nil, .nil⟩

namespace Checked

variable {r : Ring} {e : Edit}

/-- Storing keeps a ring checked if the record has passed what a checked insert asks of it. -/
theorem store (h : r.Checked) (he : e.checked = true) (hc : e.check = .ok ())
    (hm : r.settings.duplicates = .error → r.meets e = false) : (r.store e).value.Checked := by
  have hnew (hd : r.settings.duplicates = .error) : ¬ r.Repeats e := by
    rw [← h.indexed.meets_iff, hm hd]
    simp
  have hsegments := segments_store r e
  have htriangles := triangles_store r e
  refine ⟨h.indexed.store e, ?_, ?_⟩
  · rw [settings_store, hsegments]
    cases e with
    | pushSegment s => cases he
    | insertSegment s =>
        refine h.segments.concat hc fun hd s' hs' hp => hnew hd ?_
        exact ⟨s', Array.mem_toList_iff.mp hs', hp⟩
    | pushTriangle t => cases he
    | insertTriangle t => simpa [Edit.segment?] using h.segments
  · rw [settings_store, htriangles]
    cases e with
    | pushSegment s => cases he
    | insertSegment s => simpa [Edit.triangle?] using h.triangles
    | pushTriangle t => cases he
    | insertTriangle t =>
        refine h.triangles.concat hc fun hd t' ht' hp => hnew hd ?_
        exact ⟨t', Array.mem_toList_iff.mp ht', hp⟩

/-- The step of a run: whether the insert is accepted or refused, the ring stays checked. -/
theorem apply (h : r.Checked) (he : e.checked = true) : (r.apply e).ring.Checked := by
  rcases r.apply_ring_cases e with hr | ⟨hc, hm, hr⟩
  · rwa [hr]
  · rw [hr]
    exact h.store he hc hm

/-- Runs of checked inserts keep a ring checked, by induction on the run. -/
theorem run (h : r.Checked) {es : List Edit} (hes : ∀ e ∈ es, e.checked = true) :
    (r.run es).Checked := by
  induction es generalizing r with
  | nil => exact h
  | cons e es ih =>
      obtain ⟨he, hrest⟩ := List.forall_mem_cons.mp hes
      exact ih (h.apply he) hrest

end Checked

/-! ## Finite places -/

variable {r : Ring}

theorem Indexed.place?_eq_lookup (h : r.Indexed) (n : Node) :
    r.place? n = r.snapshot.places.lookup n := by
  rw [place?, h.endPlace?_eq, h.getElem?_apexes, ← List.lookup_append]
  rfl

theorem Indexed.place?_finite (h : r.Indexed) (hr : r.AllFinite) {n : Node} {p : Point}
    (hp : r.place? n = some p) : p.isFinite = true := by
  have hplaces := Snapshot.checkPlaces_eq_ok_iff.mp (checkPlaces_snapshot_iff.mpr hr)
  rw [h.place?_eq_lookup] at hp
  obtain ⟨before, after, hsplit, _⟩ := List.lookup_eq_some_iff.mp hp
  exact hplaces (n, p) (by simp [hsplit])

theorem AllFinite.exists_save (h : r.AllFinite) : ∃ d, r.save = .ok d := by
  cases hsave : r.save with
  | ok d => exact ⟨d, rfl⟩
  | error f => exact absurd h (exists_save_eq_error_iff.mp ⟨f, hsave⟩)

theorem Checked.allFinite (h : r.Checked) : r.AllFinite := by
  constructor
  · intro s hs
    exact (Segment.check_eq_ok_iff.mp (h.segments.checked s hs.val)).2
  · intro t ht
    exact (Triangle.check_eq_ok_iff.mp (h.triangles.checked t ht.val)).2

/-- What a ring is like that took checked inserts only. -/
structure CheckedSpec (policy : DuplicatePolicy) (r : Ring) : Prop where
  segment_nodes : ∀ s ∈ r.segments, s.n0 ≠ s.n1
  triangle_nodes : ∀ t ∈ r.triangles, t.n0 ≠ t.n1 ∧ t.n0 ≠ t.n2 ∧ t.n1 ≠ t.n2
  allFinite : r.AllFinite
  endPlace?_finite : ∀ n p, r.endPlace? n = some p → p.isFinite = true
  place?_finite : ∀ n p, r.place? n = some p → p.isFinite = true
  saves : ∃ d, r.save = .ok d
  /-- No two segments join the same nodes, in either direction. -/
  segments_distinct : policy = .error → ∀ (i j : Nat) (s s' : Segment), i ≠ j →
    r.segments[i]? = some s → r.segments[j]? = some s' →
      ¬ (s.n0 = s'.n0 ∧ s.n1 = s'.n1) ∧ ¬ (s.n0 = s'.n1 ∧ s.n1 = s'.n0)
  /-- No two triangles have the same nodes, in any order. -/
  triangles_distinct : policy = .error → ∀ (i j : Nat) (t t' : Triangle), i ≠ j →
    r.triangles[i]? = some t → r.triangles[j]? = some t' → ¬ ∀ n, n ∈ t.nodes ↔ n ∈ t'.nodes
  segment_keys : policy = .error → (r.segments.toList.map Segment.key).Nodup
  triangle_keys : policy = .error → (r.triangles.toList.map Triangle.key).Nodup
  size_segmentKeys : policy = .error → r.segmentKeys.size = r.segments.size
  size_triangleKeys : policy = .error → r.triangleKeys.size = r.triangles.size

theorem Checked.spec (h : r.Checked) : CheckedSpec r.settings.duplicates r where
  segment_nodes s hs := (Segment.check_eq_ok_iff.mp (h.segments.checked s hs.val)).1
  triangle_nodes t ht := by
    have hnodes := (Triangle.check_eq_ok_iff.mp (h.triangles.checked t ht.val)).1
    simpa [Triangle.nodes, and_assoc] using hnodes
  allFinite := h.allFinite
  endPlace?_finite n p hp := by
    refine h.indexed.place?_finite h.allFinite (n := n) ?_
    rw [place?, hp, Option.some_or]
  place?_finite n p := h.indexed.place?_finite h.allFinite
  saves := h.allFinite.exists_save
  segments_distinct hd i j s s' hij hs hs' := by
    rw [← Array.getElem?_toList] at hs hs'
    rw [← not_or, ← Node.perm_pair_iff]
    exact h.segments.not_perm hd hij hs hs'
  triangles_distinct hd i j t t' hij ht ht' hnodes := by
    rw [← Array.getElem?_toList] at ht ht'
    have hnodup {t : Triangle} {i : Nat} (ht : r.triangles.toList[i]? = some t) : t.nodes.Nodup :=
      (Triangle.check_eq_ok_iff.mp (h.triangles.checked t (List.mem_of_getElem? ht))).1
    refine h.triangles.not_perm hd hij ht ht' ?_
    exact (List.perm_ext_iff_of_nodup (hnodup ht) (hnodup ht')).mpr hnodes
  segment_keys := h.segments.nodup_keys
  triangle_keys := h.triangles.nodup_keys
  size_segmentKeys hd := by
    rw [h.indexed.segmentKeys]
    exact h.segments.size_keys hd
  size_triangleKeys hd := by
    rw [h.indexed.triangleKeys]
    exact h.triangles.size_keys hd

/-- Whatever checked inserts are tried on a fresh ring, refused ones included. -/
theorem checked_run_spec {settings : Settings} {r : Ring} (h : ofSettings settings = .ok r)
    {es : List Edit} (hes : ∀ e ∈ es, e.checked = true) :
    CheckedSpec settings.duplicates (r.run es) := by
  obtain ⟨_, rfl⟩ := ofSettings_eq_ok_iff.mp h
  have hrun := ((checked_ofRecords settings).run hes).spec
  rwa [settings_run] at hrun

/-- A strict ring refuses nodes given again in another order, a loop and an infinite apex. -/
theorem checked_run_spec_strict :
    let p : Point := ⟨⟨0⟩, ⟨0⟩⟩
    let far : Point := ⟨⟨0x7ff0000000000000⟩, ⟨0⟩⟩
    let r : Ring := { settings := .strict }
    let es : List Edit := [.insertSegment ⟨⟨1⟩, ⟨2⟩, p, p⟩, .insertSegment ⟨⟨2⟩, ⟨1⟩, p, p⟩,
      .insertSegment ⟨⟨3⟩, ⟨3⟩, p, p⟩, .insertTriangle ⟨⟨1⟩, ⟨2⟩, ⟨3⟩, far⟩,
      .insertTriangle ⟨⟨1⟩, ⟨2⟩, ⟨3⟩, p⟩, .insertTriangle ⟨⟨3⟩, ⟨1⟩, ⟨2⟩, p⟩]
    ofSettings .strict = .ok r ∧ (∀ e ∈ es, e.checked = true) ∧ CheckedSpec .error (r.run es) ∧
      (r.run es).segments = #[⟨⟨1⟩, ⟨2⟩, p, p⟩] ∧
      (r.run es).triangles = #[⟨⟨1⟩, ⟨2⟩, ⟨3⟩, p⟩] := by
  intro p far r es
  have hr : ofSettings .strict = .ok r := rfl
  have hes : ∀ e ∈ es, e.checked = true := by decide
  exact ⟨hr, hes, checked_run_spec hr hes, by decide +kernel, by decide +kernel⟩

end Ring

end MeshRing
