import Mathlib
import MeshRing.Proofs.Reachable

/-! Every writer of the snapshot format is undone by its reader. -/

namespace MeshRing

open Outcome

namespace Reader

variable {α : Type} {read : Reader α} {write : α → Datum}

/-- What is written is read back. -/
def Reads (read : Reader α) (write : α → Datum) : Prop :=
  ∀ a, read (write a) = .ok a

theorem run_next_cons (read : Reader α) (item : Datum) (rest : List Datum) :
    (next read).run (item :: rest) = read item >>= fun a => pure (a, rest) := rfl

theorem Reads.two (h : Reads read write) (a b : α) :
    Reader.two read (.list [write a, write b]) = .ok (a, b) := by
  simp only [Reader.two, fixed, items, StateT.run_bind, run_next_cons, h a, h b, ok_bind, pure_bind]
  rfl

theorem Reads.three (h : Reads read write) (a b c : α) :
    Reader.three read (.list [write a, write b, write c]) = .ok (a, b, c) := by
  simp only [Reader.three, fixed, items, StateT.run_bind, run_next_cons, h a, h b, h c, ok_bind,
    pure_bind]
  rfl

theorem Reads.list (h : Reads read write) : Reads (.list read) fun as => .list (as.map write) := by
  intro as
  simp only [Reader.list]
  induction as with
  | nil => rfl
  | cons a as ih =>
      rw [List.map_cons, List.mapM_cons, h a, ok_bind, ih, ok_bind]
      rfl

theorem field?_eq {entries : List (String × Datum)} {name : String} {item : Datum} {a : α}
    (h : entries.lookup name = some item) (ha : read item = .ok a) :
    field? entries name read = .ok (some a) := by
  rw [field?, h]
  simp only [ha]
  rfl

end Reader

open Reader

theorem Node.reads : Reads ofDatum toDatum := by
  intro n
  have hn : (0 : Int) ≤ n.index.toNat ∧ (n.index.toNat : Int).toNat < UInt32.size :=
    ⟨Int.natCast_nonneg _, n.index.toNat_lt_size⟩
  rw [toDatum, ofDatum, if_pos hn, Int.toNat_natCast, UInt32.ofNat_toNat]

theorem Binary64.reads : Reads ofDatum .float := fun _ => rfl

theorem Binary64.toFloat_ofFloat (x : Float) : (ofFloat x).toFloat = x :=
  Float.ofBits_toBits x

theorem Point.reads : Reads ofDatum toDatum := by
  intro p
  rw [toDatum, ofDatum, Binary64.reads.two, ok_bind]
  rfl

theorem DuplicatePolicy.reads : Reads ofDatum fun p => .text p.name := by
  intro p
  cases p <;> rfl

theorem Settings.reads : Reads ofDatum toDatum := by
  intro s
  simp only [toDatum, ofDatum, Reader.record]
  rw [field?_eq (by rfl) (DuplicatePolicy.reads s.duplicates), ok_bind,
    field?_eq (by rfl) (Binary64.reads _), ok_bind]
  simp only [Reader.require, ok_bind, Binary64.toFloat_ofFloat]
  rfl

theorem Settings.check_eq_ok_iff {s : Settings} :
    s.check = .ok () ↔ s.tolerance.isFinite = true ∧ ¬ s.tolerance < 0.0 := by
  unfold check
  by_cases hf : s.tolerance.isFinite = true <;> by_cases hn : s.tolerance < 0.0 <;> simp [hf, hn]

theorem Segment.reads : Reads ofDatum toDatum := by
  intro s
  simp only [toDatum, ofDatum, Reader.record]
  rw [field?_eq (by rfl) (Node.reads.two _ _), ok_bind,
    field?_eq (by rfl) (Point.reads.two _ _), ok_bind]
  rfl

theorem Triangle.reads : Reads ofDatum toDatum := by
  intro t
  simp only [toDatum, ofDatum, Reader.record]
  rw [field?_eq (by rfl) (Node.reads.three _ _ _), ok_bind,
    field?_eq (by rfl) (Point.reads _), ok_bind]
  rfl

/-- Snapshots read back whatever their coordinates and settings are. -/
theorem Snapshot.reads : Reads ofDatum toDatum := by
  intro s
  simp only [toDatum, ofDatum, Reader.record]
  rw [field?_eq (by rfl) (Settings.reads _), ok_bind,
    field?_eq (by rfl) (Segment.reads.list _), ok_bind,
    field?_eq (by rfl) (Triangle.reads.list _), ok_bind]
  rfl

namespace Ring

variable {r : Ring}

/-- Every coordinate that the ring stores is finite. -/
def AllFinite (r : Ring) : Prop :=
  (∀ s ∈ r.segments, s.p0.isFinite = true ∧ s.p1.isFinite = true) ∧
    ∀ t ∈ r.triangles, t.apex.isFinite = true

instance : Decidable r.AllFinite := by
  unfold AllFinite
  infer_instance

theorem checkPlaces_snapshot_iff : r.snapshot.checkPlaces = .ok () ↔ r.AllFinite := by
  rw [Snapshot.checkPlaces_eq_ok_iff, Snapshot.places, List.forall_mem_append,
    List.forall_mem_flatMap, List.forall_mem_map]
  simp [snapshot, AllFinite, Segment.places, Triangle.place]

theorem Indexed.ring_snapshot (h : r.Indexed) : r.snapshot.ring = r := by
  rw [Snapshot.ring, snapshot, Array.toArray_toList, Array.toArray_toList]
  exact h.eq_ofRecords.symm

theorem numEq_self {s : Settings} (h : s.check = .ok ()) : s.numEq s = true := by
  have ht : s.tolerance ≠ .nan := by
    intro hn
    have hf := (Settings.check_eq_ok_iff.mp h).1
    rw [hn] at hf
    exact absurd hf (by decide)
  rw [Settings.numEq, Float.beq_self_iff.mpr ht]
  simp

/-- Rings with valid settings equal themselves: a tolerance that is NaN would not. -/
theorem beq_self (h : r.settings.check = .ok ()) : (r == r) = true := by
  show (r.settings.numEq r.settings && r.segments == r.segments &&
    r.triangles == r.triangles) = true
  rw [numEq_self h]
  simp

/-- The ring can be saved, and what is saved loads as the same ring, down to every bit and index. -/
def Reloads (r : Ring) : Prop :=
  ∃ d, r.save = .ok d ∧ ∃ loaded, (load d).value = .ok loaded ∧ loaded = r ∧ (loaded == r) = true

/-- What is saved holds valid settings and finite places, so it loads, and as the same ring. -/
theorem Indexed.reloads (h : r.Indexed) (hs : r.settings.check = .ok ()) (hr : r.AllFinite) :
    r.Reloads := by
  have hplaces : r.snapshot.checkPlaces = .ok () := checkPlaces_snapshot_iff.mpr hr
  have hsave : r.save = .ok r.snapshot.toDatum := by
    rw [save, hplaces]
    rfl
  have hload : (load r.snapshot.toDatum).value = .ok r :=
    load_eq_ok_iff.mpr ⟨r.snapshot, Snapshot.reads _, hs, hplaces, h.ring_snapshot.symm⟩
  exact ⟨_, hsave, r, hload, rfl, beq_self hs⟩

theorem allFinite_of_load {d : Datum} (h : (load d).value = .ok r) : r.AllFinite := by
  obtain ⟨s, _, _, hplaces, rfl⟩ := load_eq_ok_iff.mp h
  rwa [← checkPlaces_snapshot_iff]

/-- A reachable ring with finite coordinates reloads, whatever its policy would refuse.
So does every loaded ring: saving brings the tree that it came from into a form that
loading and saving keep. -/
theorem round_trip :
    (∀ r, Reachable r → r.AllFinite → r.Reloads) ∧
      ∀ d r, (load d).value = .ok r → r.Reloads := by
  constructor
  · intro r h hr
    exact h.indexed.reloads h.settings_check hr
  · intro d r h
    have hr : Reachable r := .load h
    exact hr.indexed.reloads hr.settings_check (allFinite_of_load h)

/-- A strict ring takes unchecked repeats and loops, with negative zeros and subnormal
coordinates. The tree is written in order and by integers, unlike what is saved. -/
theorem round_trip_strict :
    let place : Point := ⟨⟨0x8000000000000000⟩, ⟨1⟩⟩
    let loop : Segment := ⟨⟨7⟩, ⟨7⟩, place, place⟩
    let triangle : Triangle := ⟨⟨7⟩, ⟨8⟩, ⟨8⟩, place⟩
    let r := run { settings := .strict }
      [.pushSegment loop, .pushSegment loop, .pushTriangle triangle, .insertTriangle triangle]
    let d : Datum := .list [.list [.int 1, .text "Error"], .list [.list [.list [.int 7, .int 7],
      .list [.list [.int 0, .int 1], .list [.int 2, .int 3]]]], .list []]
    Reachable r ∧ r.AllFinite ∧ r.Reloads ∧ ∃ s, (load d).value = .ok s ∧ s.Reloads :=
  have h := (Reachable.ofSettings (s := .strict) rfl).run _
  ⟨h, by decide +kernel, round_trip.1 _ h (by decide +kernel),
    Exists.imp (fun s hs => ⟨hs, round_trip.2 _ s hs⟩) ⟨_, rfl⟩⟩

end Ring

end MeshRing
