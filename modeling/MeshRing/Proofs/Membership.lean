import MeshRing.Proofs.Reachable

/-! Keys are sorted nodes: order does not matter in a look-up, repetitions do. -/

namespace MeshRing

open List

/-! ## Nodes up to order -/

theorem Node.perm_pair_iff {a b m n : Node} :
    [a, b] ~ [m, n] ↔ (a = m ∧ b = n) ∨ (a = n ∧ b = m) := by
  constructor
  · intro h
    have ha : a ∈ [m, n] := h.subset mem_cons_self
    rcases mem_cons.mp ha with rfl | ha
    · have hb : [b] ~ [n] := h.cons_inv
      exact .inl ⟨rfl, by simpa using hb⟩
    · obtain rfl : a = n := by simpa using ha
      have hb : [b] ~ [m] := (h.trans (.swap a m [])).cons_inv
      exact .inr ⟨rfl, by simpa using hb⟩
  · rintro (⟨rfl, rfl⟩ | ⟨rfl, rfl⟩)
    · exact .refl _
    · exact .swap b a []

/-- Three nodes of which two are equal say which of them is repeated. -/
theorem Node.not_perm_of_repeated {m n : Node} (h : m ≠ n) : ¬ [m, m, n] ~ [m, n, n] := by
  intro hp
  have hcount := hp.count_eq m
  simp [h.symm] at hcount

theorem Segment.joins_iff_perm (s : Segment) (m n : Node) :
    s.joins m n = true ↔ s.nodes ~ [m, n] := by
  rw [joins, key, beq_iff_eq, Node.ascending_eq_iff]

theorem Segment.joins_iff_ends (s : Segment) (m n : Node) :
    s.joins m n = true ↔ (s.n0 = m ∧ s.n1 = n) ∨ (s.n0 = n ∧ s.n1 = m) := by
  rw [s.joins_iff_perm, nodes, Node.perm_pair_iff]

/-! ## Look-ups in a ring -/

namespace Ring

/-- Only the sorted nodes are looked up. -/
theorem joins_congr (r : Ring) {m n m' n' : Node} (h : [m, n] ~ [m', n']) :
    r.joins m n = r.joins m' n' := by
  rw [joins, joins, Node.ascending_eq_iff.mpr h]

theorem spans_congr (r : Ring) {l m n l' m' n' : Node} (h : [l, m, n] ~ [l', m', n']) :
    r.spans l m n = r.spans l' m' n' := by
  rw [spans, spans, Node.ascending_eq_iff.mpr h]

/-- What membership says about the records. -/
structure MembershipSpec (r : Ring) : Prop where
  joins_iff : ∀ m n, r.joins m n = true ↔ ∃ s ∈ r.segments, s.joins m n = true
  joins_iff_ends : ∀ m n, r.joins m n = true ↔
    ∃ s ∈ r.segments, (s.n0 = m ∧ s.n1 = n) ∨ (s.n0 = n ∧ s.n1 = m)
  spans_iff : ∀ l m n, r.spans l m n = true ↔ ∃ t ∈ r.triangles, [t.n0, t.n1, t.n2] ~ [l, m, n]
  spans_iff_count : ∀ l m n, r.spans l m n = true ↔
    ∃ t ∈ r.triangles, ∀ x, [t.n0, t.n1, t.n2].count x = [l, m, n].count x
  /-- No triangle answers for two triples that repeat different nodes. -/
  repeated : ∀ m n, m ≠ n → ∀ t ∈ r.triangles,
    [t.n0, t.n1, t.n2] ~ [m, m, n] → ¬ [t.n0, t.n1, t.n2] ~ [m, n, n]
  joins_reorder : ∀ m n m' n', [m, n] ~ [m', n'] → r.joins m n = r.joins m' n'
  spans_reorder : ∀ l m n l' m' n', [l, m, n] ~ [l', m', n'] → r.spans l m n = r.spans l' m' n'

theorem Indexed.joins_iff_exists {r : Ring} (h : r.Indexed) (m n : Node) :
    r.joins m n = true ↔ ∃ s ∈ r.segments, s.joins m n = true := by
  rw [h.joins_iff]
  simp only [Segment.joins_iff_perm]

end Ring

/-- Membership in a reachable ring, in terms of its records alone. -/
theorem Reachable.membership_spec {r : Ring} (h : Reachable r) : r.MembershipSpec where
  joins_iff := h.indexed.joins_iff_exists
  joins_iff_ends m n := by
    rw [h.indexed.joins_iff_exists]
    simp only [Segment.joins_iff_ends]
  spans_iff := h.indexed.spans_iff
  spans_iff_count l m n := by
    rw [h.indexed.spans_iff]
    simp only [Triangle.nodes, perm_iff_count]
  repeated m n hne t _ hm hn := Node.not_perm_of_repeated hne (hm.symm.trans hn)
  joins_reorder _ _ _ _ := r.joins_congr
  spans_reorder _ _ _ _ _ _ := r.spans_congr

/-- A triangle is stored with a repeated node and a segment against the order of its nodes;
each is found in every order, and the triple that repeats the other node is not. -/
theorem Reachable.membership_spec_repeats :
    let p : Point := ⟨⟨0⟩, ⟨0⟩⟩
    let r := Ring.empty.run
      [.pushTriangle ⟨⟨1⟩, ⟨1⟩, ⟨2⟩, p⟩, .insertSegment ⟨⟨2⟩, ⟨1⟩, p, p⟩,
        .insertTriangle ⟨⟨1⟩, ⟨2⟩, ⟨2⟩, p⟩]
    Reachable r ∧ r.MembershipSpec ∧ r.joins ⟨1⟩ ⟨2⟩ = true ∧ r.spans ⟨2⟩ ⟨1⟩ ⟨1⟩ = true ∧
      r.spans ⟨1⟩ ⟨2⟩ ⟨2⟩ = false :=
  have h := Reachable.empty.run _
  ⟨h, Reachable.membership_spec h, by decide +kernel, by decide +kernel, by decide +kernel⟩

end MeshRing
