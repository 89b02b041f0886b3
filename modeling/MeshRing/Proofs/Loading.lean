import MeshRing.Proofs.Reports
import MeshRing.Proofs.RoundTrip

/-! Loading replays a snapshot, and saving refuses what a load would refuse. -/

namespace MeshRing

theorem Logged.bind_pure_eq {α β : Type} (x : Logged α) (f : α → β) :
    (x >>= fun a => pure (f a)) = ⟨f x.value, x.events⟩ := by
  show Logged.mk _ (_ ++ []) = _
  rw [List.append_nil]
  rfl

/-! ## The tolerance -/

theorem isFinite_eq (x : Float) : x.isFinite = (!x.isNaN && !x.isInf) := by
  show x.toModel.unpack.isFinite = (!x.toModel.unpack.isNaN && !x.toModel.unpack.isInf)
  cases x.toModel.unpack <;> rfl

namespace Settings

/-- The tolerance is no length. -/
def Unusable (s : Settings) : Prop :=
  s.tolerance.isNaN = true ∨ s.tolerance.isInf = true ∨ s.tolerance < 0.0

instance (s : Settings) : Decidable s.Unusable := by
  unfold Unusable
  infer_instance

theorem check_eq (s : Settings) : s.check =
    if s.Unusable then .error (.invalidSettings
      ("tolerance must be finite and non-negative, got " ++ measureText s.tolerance))
    else .ok () := by
  have h : (!s.tolerance.isFinite || decide (s.tolerance < 0.0)) = true ↔ s.Unusable := by
    rw [Bool.or_eq_true, isFinite_eq, Bool.not_and, Bool.not_not, Bool.not_not, Bool.or_eq_true,
      decide_eq_true_iff, or_assoc, Unusable]
  simp only [check, h]

theorem check_eq_ok_iff_usable {s : Settings} : s.check = .ok () ↔ ¬ s.Unusable := by
  rw [check_eq]
  by_cases h : s.Unusable <;> simp [h]

end Settings

/-! ## The first place that is not finite -/

/-- The first end that is not finite, where a segment's `n0` comes before its `n1`. -/
def firstNonFiniteEnd? : List Segment → Option (Node × Point)
  | [] => none
  | s :: rest =>
    if !s.p0.isFinite then some (s.n0, s.p0)
    else if !s.p1.isFinite then some (s.n1, s.p1)
    else firstNonFiniteEnd? rest

def firstNonFiniteApex? : List Triangle → Option (Node × Point)
  | [] => none
  | t :: rest => if !t.apex.isFinite then some (t.n2, t.apex) else firstNonFiniteApex? rest

/-- A place that was found is refused. -/
def refuse : Option (Node × Point) → Except RingFault Unit
  | some (n, p) => .error (.nonFiniteCoordinate n p)
  | none => .ok ()

theorem forM_places (segments : List Segment) (rest : List (Node × Point)) :
    (segments.flatMap Segment.places ++ rest).forM (fun place => requireFinite place.1 place.2) =
      match firstNonFiniteEnd? segments with
      | some place => refuse (some place)
      | none => rest.forM fun place => requireFinite place.1 place.2 := by
  induction segments with
  | nil => rfl
  | cons s segments ih =>
      simp only [List.flatMap_cons, Segment.places, List.cons_append, List.nil_append, List.forM,
        requireFinite, firstNonFiniteEnd?]
      cases s.p0.isFinite with
      | false => rfl
      | true =>
          cases s.p1.isFinite with
          | false => rfl
          | true => exact ih

theorem forM_apexes (triangles : List Triangle) :
    (triangles.map Triangle.place).forM (fun place => requireFinite place.1 place.2) =
      refuse (firstNonFiniteApex? triangles) := by
  induction triangles with
  | nil => rfl
  | cons t triangles ih =>
      simp only [List.map_cons, Triangle.place, List.forM, requireFinite, firstNonFiniteApex?]
      cases t.apex.isFinite with
      | false => rfl
      | true => exact ih

namespace Snapshot

/-- The first place that is not finite, segment by segment and then triangle by triangle. -/
def firstNonFinite? (s : Snapshot) : Option (Node × Point) :=
  (firstNonFiniteEnd? s.segments).or (firstNonFiniteApex? s.triangles)

theorem checkPlaces_eq (s : Snapshot) : s.checkPlaces = refuse s.firstNonFinite? := by
  rw [checkPlaces, places, forM_places, firstNonFinite?]
  cases firstNonFiniteEnd? s.segments with
  | some place => rfl
  | none => exact forM_apexes s.triangles

theorem checkPlaces_eq_error_iff {s : Snapshot} {f : RingFault} :
    s.checkPlaces = .error f ↔ ∃ n p, s.firstNonFinite? = some (n, p) ∧
      f = .nonFiniteCoordinate n p := by
  rw [checkPlaces_eq]
  cases s.firstNonFinite? with
  | none => simp [refuse]
  | some place =>
      obtain ⟨n, p⟩ := place
      simp [refuse, @eq_comm _ f]

theorem firstNonFinite?_eq_none_iff {s : Snapshot} :
    s.firstNonFinite? = none ↔ ∀ place ∈ s.places, place.2.isFinite = true := by
  rw [← checkPlaces_eq_ok_iff, checkPlaces_eq]
  cases s.firstNonFinite? <;> simp [refuse]

/-! ## Pushing a snapshot -/

/-- The records of a snapshot as unchecked edits, segments before triangles. -/
def pushes (s : Snapshot) : List Edit :=
  s.segments.map .pushSegment ++ s.triangles.map .pushTriangle

/-- One trace for each record, with the number of its kind that are stored by then. -/
def traces (s : Snapshot) : List Event :=
  s.segments.mapIdx (fun i a => .storedSegment a.n0 a.n1 (i + 1)) ++
    s.triangles.mapIdx fun i t => .storedTriangle t.n0 t.n1 t.n2 (i + 1)

end Snapshot

namespace Ring

def events (r : Ring) (es : List Edit) : List Event :=
  (r.reports es).flatMap Report.events

theorem events_append (r : Ring) (es es' : List Edit) :
    r.events (es ++ es') = r.events es ++ (r.run es).events es' := by
  rw [events, reports_append, List.flatMap_append, events, events]

/-- Folding a push over records is running the records as edits. -/
theorem foldlM_eq_run {α : Type} (push : Ring → α → Logged Ring) (edit : α → Edit)
    (h : ∀ (r : Ring) a, r.apply (edit a) = .stored (push r a)) (r : Ring) (as : List α) :
    as.foldlM push r = ⟨r.run (as.map edit), r.events (as.map edit)⟩ := by
  induction as generalizing r with
  | nil => rfl
  | cons a as ih =>
      have hevents : r.events ((a :: as).map edit) =
          (push r a).events ++ (push r a).value.events (as.map edit) := by
        simp [events, Attempt.report, h, Step.stored]
      simp only [List.foldlM_cons, ih]
      rw [hevents, List.map_cons, run_cons, h]
      rfl

/-- When each edit logs one trace, with the new size of what it adds to, the traces are
numbered from the old size on. In the induction the numbers start over with the tail, where
the ring is larger by one instead. -/
theorem events_map {α : Type} (edit : α → Edit) (trace : α → Nat → Event) (size : Ring → Nat)
    (htrace : ∀ (r : Ring) a, (r.apply (edit a)).events = [trace a (size r + 1)])
    (hsize : ∀ (r : Ring) a, size (r.apply (edit a)).ring = size r + 1) (r : Ring) (as : List α) :
    r.events (as.map edit) = as.mapIdx fun i a => trace a (size r + i + 1) := by
  induction as generalizing r with
  | nil => rfl
  | cons a as ih =>
      have hrest := ih (r.apply (edit a)).ring
      simp only [hsize, Nat.add_right_comm _ 1] at hrest
      rw [List.mapIdx_cons, List.map_cons]
      simp only [← Nat.add_assoc, ← hrest]
      simp [events, Attempt.report, htrace]

theorem events_pushSegments (r : Ring) (segments : List Segment) :
    r.events (segments.map .pushSegment) =
      segments.mapIdx fun i a => .storedSegment a.n0 a.n1 (r.segments.size + i + 1) :=
  events_map .pushSegment (fun a => .storedSegment a.n0 a.n1) (·.segments.size) (fun _ _ => rfl)
    (fun _ a => Array.size_push a) r segments

theorem events_pushTriangles (r : Ring) (triangles : List Triangle) :
    r.events (triangles.map .pushTriangle) =
      triangles.mapIdx fun i t => .storedTriangle t.n0 t.n1 t.n2 (r.triangles.size + i + 1) :=
  events_map .pushTriangle (fun t => .storedTriangle t.n0 t.n1 t.n2) (·.triangles.size)
    (fun _ _ => rfl) (fun _ t => Array.size_push t) r triangles

theorem triangles_run_pushSegments (r : Ring) (segments : List Segment) :
    (r.run (segments.map .pushSegment)).triangles = r.triangles := by
  induction segments generalizing r with
  | nil => rfl
  | cons a segments ih => exact ih _

end Ring

namespace Snapshot

/-- Pushing a snapshot is a run of unchecked edits. -/
theorem pushAll_eq (s : Snapshot) (r : Ring) :
    s.pushAll r = ⟨r.run s.pushes, r.events s.pushes⟩ := by
  have hsegments := Ring.foldlM_eq_run Ring.pushSegment .pushSegment (fun _ _ => rfl)
  have htriangles := Ring.foldlM_eq_run Ring.pushTriangle .pushTriangle (fun _ _ => rfl)
  simp only [pushAll, hsegments, htriangles]
  rw [pushes, Ring.run_append, Ring.events_append]
  rfl

theorem events_pushes (s : Snapshot) (settings : Settings) :
    Ring.events { settings } s.pushes = s.traces := by
  rw [pushes, Ring.events_append, traces, Ring.events_pushSegments, Ring.events_pushTriangles,
    Ring.triangles_run_pushSegments]
  simp

theorem replay_of_unusable {s : Snapshot} (h : s.settings.Unusable) :
    s.replay = pure (.error (.invalidSettings
      ("tolerance must be finite and non-negative, got " ++
        measureText s.settings.tolerance))) := by
  rw [replay, Ring.ofSettings, Settings.check_eq, if_pos h]
  rfl

theorem ofSettings_of_usable {s : Settings} (h : ¬ s.Unusable) :
    Ring.ofSettings s = .ok { settings := s } := by
  rw [Ring.ofSettings, Settings.check_eq_ok_iff_usable.mpr h]
  rfl

/-- With a usable tolerance every record is pushed, and only then the places are looked at. -/
theorem replay_of_usable {s : Snapshot} (h : ¬ s.settings.Unusable) :
    s.replay =
      ⟨(refuse s.firstNonFinite?).map fun _ => Ring.run { settings := s.settings } s.pushes,
        s.traces⟩ := by
  rw [replay, ofSettings_of_usable h, ← s.events_pushes s.settings, ← checkPlaces_eq]
  simp only [pushAll_eq, Logged.bind_pure_eq]
  rfl

end Snapshot

namespace Ring

theorem load_of_ofDatum {d : Datum} {s : Snapshot} (h : Snapshot.ofDatum d = .ok s) :
    load d = ⟨s.replay.value.mapError .refused, s.replay.events⟩ := by
  rw [load, h]
  exact Logged.bind_pure_eq _ _

/-- What a load makes of a tree that holds a snapshot. The two cases for a usable tolerance look at
neither the policy nor repeated nodes and keys. -/
structure LoadSpec (s : Snapshot) (d : Datum) : Prop where
  unusable : s.settings.Unusable → load d =
    ⟨.error (.refused (.invalidSettings ("tolerance must be finite and non-negative, got " ++
      measureText s.settings.tolerance))), []⟩
  /-- Events stay reported when a place is refused in the end. -/
  events_eq : ¬ s.settings.Unusable → (load d).events = s.traces
  level_eq : ∀ e ∈ (load d).events, e.level = "TRACE"
  ofSettings_eq : ¬ s.settings.Unusable → ofSettings s.settings = .ok { settings := s.settings }
  events_run : ¬ s.settings.Unusable → s.traces = events { settings := s.settings } s.pushes
  value_eq : ¬ s.settings.Unusable → (load d).value =
    match s.firstNonFinite? with
    | some (n, p) => .error (.refused (.nonFiniteCoordinate n p))
    | none => .ok (run { settings := s.settings } s.pushes)
  firstNonFinite?_eq_none_iff :
    s.firstNonFinite? = none ↔ ∀ place ∈ s.places, place.2.isFinite = true

theorem level_of_mem_traces {s : Snapshot} {e : Event} (h : e ∈ s.traces) : e.level = "TRACE" := by
  simp only [Snapshot.traces, List.mem_append, List.mem_mapIdx] at h
  rcases h with ⟨_, _, rfl⟩ | ⟨_, _, rfl⟩ <;> rfl

/-- A load refuses an unusable tolerance first, then stores every record, and then refuses
the first place that is not finite. -/
theorem load_spec {s : Snapshot} {d : Datum} (h : Snapshot.ofDatum d = .ok s) : LoadSpec s d := by
  have hload := load_of_ofDatum h
  by_cases hs : s.settings.Unusable
  · rw [Snapshot.replay_of_unusable hs] at hload
    exact {
      unusable _ := hload
      events_eq hn := absurd hs hn
      level_eq e he := by
        rw [hload] at he
        cases he
      ofSettings_eq hn := absurd hs hn
      events_run hn := absurd hs hn
      value_eq hn := absurd hs hn
      firstNonFinite?_eq_none_iff := Snapshot.firstNonFinite?_eq_none_iff }
  · rw [Snapshot.replay_of_usable hs] at hload
    exact {
      unusable hu := absurd hu hs
      events_eq _ := by rw [hload]
      level_eq e he := by
        rw [hload] at he
        exact level_of_mem_traces he
      ofSettings_eq := Snapshot.ofSettings_of_usable
      events_run _ := (s.events_pushes s.settings).symm
      value_eq _ := by
        rw [hload]
        cases s.firstNonFinite? <;> rfl
      firstNonFinite?_eq_none_iff := Snapshot.firstNonFinite?_eq_none_iff }

/-! ## Saving -/

theorem save_eq_error_iff {r : Ring} {f : RingFault} :
    r.save = .error f ↔ r.snapshot.checkPlaces = .error f := by
  unfold save
  cases r.snapshot.checkPlaces <;> simp [bind, Except.bind, pure, Except.pure]

theorem exists_save_eq_error_iff {r : Ring} : (∃ f, r.save = .error f) ↔ ¬ r.AllFinite := by
  simp only [save_eq_error_iff, ← checkPlaces_snapshot_iff]
  cases r.snapshot.checkPlaces <;> simp

theorem load_eq_error_iff {d : Datum} {s : Snapshot} (h : Snapshot.ofDatum d = .ok s)
    (hs : ¬ s.settings.Unusable) {f : RingFault} :
    (load d).value = .error (.refused f) ↔ s.checkPlaces = .error f := by
  rw [load_of_ofDatum h, Snapshot.replay_of_usable hs, ← Snapshot.checkPlaces_eq]
  cases s.checkPlaces <;> simp [Except.map, Except.mapError]

/-- What a ring cannot save it could not load either, and for the same reason. -/
structure SaveSpec (r : Ring) : Prop where
  fails_iff : (∃ f, r.save = .error f) ↔
    (∃ s ∈ r.segments, s.p0.isFinite = false ∨ s.p1.isFinite = false) ∨
      ∃ t ∈ r.triangles, t.apex.isFinite = false
  save_error_iff : ∀ f, r.save = .error f ↔
    ∃ n p, r.snapshot.firstNonFinite? = some (n, p) ∧ f = .nonFiniteCoordinate n p
  /-- The same records under any usable settings, in any tree. -/
  load_error_iff : ∀ settings d, ¬ settings.Unusable →
    Snapshot.ofDatum d = .ok { r.snapshot with settings } →
      ∀ f, r.save = .error f ↔ (load d).value = .error (.refused f)
  reload_error_iff : ∀ f, r.save = .error f ↔
    (load r.snapshot.toDatum).value = .error (.refused f)

/-- Saving a reachable ring fails as loading its records does. -/
theorem save_spec {r : Ring} (h : Reachable r) : SaveSpec r where
  fails_iff := by
    rw [exists_save_eq_error_iff, AllFinite, Classical.not_and_iff_not_or_not]
    simp only [not_forall, exists_prop, Classical.not_and_iff_not_or_not, Bool.not_eq_true]
  save_error_iff f := by
    rw [save_eq_error_iff, Snapshot.checkPlaces_eq_error_iff]
  load_error_iff settings d hs hd f := by
    rw [save_eq_error_iff, load_eq_error_iff hd hs]
    rfl
  reload_error_iff f := by
    rw [save_eq_error_iff,
      load_eq_error_iff (Snapshot.reads r.snapshot)
        (Settings.check_eq_ok_iff_usable.mp h.settings_check)]

/-- Loading replays, and loading and saving refuse the same. Every snapshot is held by some tree. -/
theorem load_is_replay :
    (∀ s, Snapshot.ofDatum s.toDatum = .ok s) ∧
      (∀ s d, Snapshot.ofDatum d = .ok s → LoadSpec s d) ∧ ∀ r, Reachable r → SaveSpec r :=
  ⟨Snapshot.reads, fun _ _ => load_spec, fun _ => save_spec⟩

/-- A strict ring takes a loop twice from a tree and refuses it in the end for its infinite
second end, which a ring filled by hand cannot save. -/
theorem load_is_replay_strict :
    let p : Point := ⟨⟨0⟩, ⟨0⟩⟩
    let far : Point := ⟨⟨0⟩, ⟨0x7ff0000000000000⟩⟩
    let loop : Segment := ⟨⟨7⟩, ⟨7⟩, p, far⟩
    let s : Snapshot := ⟨.strict, [loop, loop], []⟩
    let r := run { settings := .strict } [.pushSegment loop, .pushSegment loop]
    Snapshot.ofDatum s.toDatum = .ok s ∧ LoadSpec s s.toDatum ∧
      s.firstNonFinite? = some (⟨7⟩, far) ∧ Reachable r ∧ SaveSpec r ∧
      r.save = .error (.nonFiniteCoordinate ⟨7⟩ far) := by
  intro p far loop s r
  have hr : Reachable r := (Reachable.ofSettings (s := .strict) rfl).run _
  have hd := load_is_replay.1 s
  have hsave := load_is_replay.2.2 r hr
  have hfirst : s.firstNonFinite? = some (⟨7⟩, far) := by decide +kernel
  exact ⟨hd, load_is_replay.2.1 s _ hd, hfirst, hr, hsave,
    (hsave.save_error_iff _).mpr ⟨_, _, hfirst, rfl⟩⟩

end Ring

end MeshRing
