import MeshRing.Proofs.Audits
import MeshRing.Proofs.Reports
import MeshRing.Proofs.RoundTrip
import MeshRing.Proofs.Tolerances

/-! Equality compares settings and records. Equal reachable rings differ at most in the sign
of a zero tolerance, which no query, edit or refusal shows. -/

namespace MeshRing

theorem Settings.numEq_iff {s t : Settings} :
    s.numEq t = true ↔ (s.tolerance == t.tolerance) = true ∧ s.duplicates = t.duplicates := by
  simp only [numEq, Bool.and_eq_true, beq_iff_eq (α := DuplicatePolicy)]

namespace Ring

theorem beq_iff {r s : Ring} : (r == s) = true ↔
    r.settings.numEq s.settings = true ∧ r.segments = s.segments ∧ r.triangles = s.triangles := by
  show (r.settings.numEq s.settings && r.segments == s.segments &&
    r.triangles == s.triangles) = true ↔ _
  rw [Bool.and_eq_true, Bool.and_eq_true, beq_iff_eq, beq_iff_eq, and_assoc]

theorem beq_symm {r s : Ring} (h : (r == s) = true) : (s == r) = true := by
  obtain ⟨hsettings, hsegments, htriangles⟩ := beq_iff.mp h
  obtain ⟨htolerance, hduplicates⟩ := Settings.numEq_iff.mp hsettings
  have hs := Settings.numEq_iff.mpr ⟨BEq.symm htolerance, hduplicates.symm⟩
  exact beq_iff.mpr ⟨hs, hsegments.symm, htriangles.symm⟩

theorem beq_trans {r s t : Ring} (h : (r == s) = true) (h' : (s == t) = true) :
    (r == t) = true := by
  obtain ⟨hsettings, hsegments, htriangles⟩ := beq_iff.mp h
  obtain ⟨htolerance, hduplicates⟩ := Settings.numEq_iff.mp hsettings
  obtain ⟨hsettings', hsegments', htriangles'⟩ := beq_iff.mp h'
  obtain ⟨htolerance', hduplicates'⟩ := Settings.numEq_iff.mp hsettings'
  have hs := Settings.numEq_iff.mpr
    ⟨BEq.trans htolerance htolerance', hduplicates.trans hduplicates'⟩
  exact beq_iff.mpr ⟨hs, hsegments.trans hsegments', htriangles.trans htriangles'⟩

/-- The same records and indexes under other settings. -/
def withSettings (settings : Settings) (r : Ring) : Ring :=
  { r with settings }

theorem Indexed.eq_withSettings_of_records {r s : Ring} (hr : r.Indexed) (hs : s.Indexed)
    (hsegments : r.segments = s.segments) (htriangles : r.triangles = s.triangles) :
    s = r.withSettings s.settings := by
  calc
    s = ofRecords s.settings s.segments s.triangles := hs.eq_ofRecords
    _ = ofRecords s.settings r.segments r.triangles := by rw [hsegments, htriangles]
    _ = r.withSettings s.settings := by
      conv => rhs; rw [hr.eq_ofRecords]
      rfl

/-- The indexes of reachable rings follow from their records, so only the settings of equal
rings can differ. -/
theorem Indexed.eq_withSettings {r s : Ring} (hr : r.Indexed) (hs : s.Indexed)
    (h : (r == s) = true) : s = r.withSettings s.settings := by
  obtain ⟨_, hsegments, htriangles⟩ := beq_iff.mp h
  exact hr.eq_withSettings_of_records hs hsegments htriangles

/-! ## Edits under other settings -/

/-- Edits consult the policy and never the tolerance. -/
theorem unnoticed_withSettings {r : Ring} {settings : Settings}
    (h : settings.duplicates = r.settings.duplicates) (e : Edit) :
    Unnoticed (withSettings settings) r e where
  meets := by cases e <;> rfl
  duplicates := h
  store := by cases e <;> rfl

theorem unnoticedAlong_withSettings {r : Ring} {settings : Settings}
    (h : settings.duplicates = r.settings.duplicates) (es : List Edit) :
    UnnoticedAlong (withSettings settings) r es := by
  intro s hs e _
  exact unnoticed_withSettings (by rw [h, hs]) e

/-! ## What equal rings have in common -/

/-- The settings of equal rings: at most the sign of a zero differs. -/
structure SameSettings (s t : Settings) : Prop where
  duplicates : s.duplicates = t.duplicates
  tolerance : s.tolerance = t.tolerance ∨ (s.tolerance = 0 ∧ t.tolerance = -0) ∨
    (s.tolerance = -0 ∧ t.tolerance = 0)

theorem sameSettings_of_numEq {s t : Settings} (h : s.numEq t = true) : SameSettings s t := by
  obtain ⟨htolerance, hduplicates⟩ := Settings.numEq_iff.mp h
  exact ⟨hduplicates, Tolerance.eq_or_zeros htolerance⟩

/-- Two rings answer every request alike, and stay equal whatever is stored next. -/
structure SameAnswers (r s : Ring) : Prop where
  settings : SameSettings r.settings s.settings
  segments : r.segments = s.segments
  triangles : r.triangles = s.triangles
  isEmpty : r.isEmpty = s.isEmpty
  segmentAt : ∀ i, r.segmentAt i = s.segmentAt i
  triangleAt : ∀ i, r.triangleAt i = s.triangleAt i
  joins : ∀ m n, r.joins m n = s.joins m n
  spans : ∀ l m n, r.spans l m n = s.spans l m n
  endPlace? : ∀ n, r.endPlace? n = s.endPlace? n
  place? : ∀ n, r.place? n = s.place? n
  crosses : ∀ m n p q, r.crosses m n p q = s.crosses m n p q
  corners : ∀ i, r.corners i = s.corners i
  areaAt : ∀ i, r.areaAt i = s.areaAt i
  metricsAt : ∀ i, r.metricsAt i = s.metricsAt i
  validMetricsAt : ∀ i, r.validMetricsAt i = s.validMetricsAt i
  audit : r.audit = s.audit
  save_error : ∀ f, r.save = .error f ↔ s.save = .error f
  /-- Saved trees differ in the settings alone. -/
  save_ok : ∀ d, r.save = .ok d →
    d = r.snapshot.toDatum ∧ s.save = .ok { r.snapshot with settings := s.settings }.toDatum
  reports : ∀ es, r.reports es = s.reports es
  run : ∀ es, (r.run es == s.run es) = true

theorem save_withSettings (r : Ring) (settings : Settings) :
    (r.withSettings settings).save = r.save.map fun _ => { r.snapshot with settings }.toDatum := by
  show (r.snapshot.checkPlaces >>= _) = (r.snapshot.checkPlaces >>= _).map _
  cases r.snapshot.checkPlaces <;> rfl

theorem save_error_withSettings (r : Ring) (settings : Settings) (f : RingFault) :
    r.save = .error f ↔ (r.withSettings settings).save = .error f := by
  rw [save_withSettings]
  cases r.save with
  | error f' => exact Iff.rfl
  | ok d => simp [Except.map]

theorem save_ok_withSettings {r : Ring} (settings : Settings) {d : Datum} (h : r.save = .ok d) :
    d = r.snapshot.toDatum ∧
      (r.withSettings settings).save = .ok { r.snapshot with settings }.toDatum := by
  refine ⟨?_, by rw [save_withSettings, h]; rfl⟩
  obtain ⟨_, hd⟩ := Outcome.check_bind_eq_ok_iff.mp h
  exact (Outcome.pure_eq_ok_iff.mp hd).symm

/-- What reads no settings agrees as it is. The rest compares with the tolerance, where the
sign of a zero does not show, or copies the settings. -/
theorem Indexed.sameAnswers {r s : Ring} (hr : r.Indexed) (hs : s.Indexed)
    (hcr : r.settings.check = .ok ()) (hcs : s.settings.check = .ok ()) (h : (r == s) = true) :
    SameAnswers r s := by
  have hnum := (beq_iff.mp h).1
  obtain ⟨htolerance, hduplicates⟩ := Settings.numEq_iff.mp hnum
  have hunnoticed := unnoticedAlong_withSettings hduplicates.symm
  have hrun : ∀ es, (r.run es == (r.withSettings s.settings).run es) = true := by
    intro es
    rw [(hunnoticed es).run]
    exact beq_iff.mpr ⟨by rwa [settings_run], rfl, rfl⟩
  have haudit : r.audit = s.audit := by
    rw [audit_eq_ok_iff.mpr ⟨hcr, hr⟩, audit_eq_ok_iff.mpr ⟨hcs, hs⟩]
  have hsettings := sameSettings_of_numEq hnum
  generalize hg : s.settings = settings at *
  obtain rfl : s = r.withSettings settings := hg ▸ hr.eq_withSettings hs h
  exact {
    settings := hsettings
    segments := rfl
    triangles := rfl
    isEmpty := rfl
    segmentAt _ := rfl
    triangleAt _ := rfl
    joins _ _ := rfl
    spans _ _ _ := rfl
    endPlace? _ := rfl
    place? _ := rfl
    crosses := by
      intro m n p q
      simp only [crosses, Tolerance.crossing_congr htolerance]
      rfl
    corners _ := rfl
    areaAt _ := rfl
    metricsAt := by
      intro i
      simp only [metricsAt, Tolerance.metrics_congr htolerance]
      rfl
    validMetricsAt := by
      intro i
      simp only [validMetricsAt, Tolerance.validMetrics_congr htolerance]
      rfl
    audit := haudit
    save_error := save_error_withSettings r _
    save_ok _ := save_ok_withSettings _
    reports es := (hunnoticed es).reports.symm
    run := hrun }

end Ring

/-- On reachable rings equality is an equivalence, and equal rings are alike in all that can
be asked of them and done with them, however they were built. -/
theorem Reachable.equality_spec :
    Equivalence (fun r s : { r : Ring // Reachable r } => (r.val == s.val) = true) ∧
      ∀ r s, Reachable r → Reachable s → (r == s) = true → Ring.SameAnswers r s := by
  constructor
  · exact {
      refl r := Ring.beq_self r.property.settings_check
      symm := Ring.beq_symm
      trans := Ring.beq_trans }
  · intro r s hr hs h
    exact hr.indexed.sameAnswers hs.indexed hr.settings_check hs.settings_check h

/-- Tolerances of both signs of zero, and a NaN in a loop; one ring has refused the loop
before and the other was loaded. -/
theorem Reachable.equality_spec_zeros :
    let p : Point := ⟨⟨0x8000000000000000⟩, ⟨1⟩⟩
    let nan : Point := ⟨⟨0x7ff8000000000001⟩, ⟨0⟩⟩
    let segment : Segment := ⟨⟨7⟩, ⟨8⟩, p, p⟩
    let loop : Segment := ⟨⟨9⟩, ⟨9⟩, nan, p⟩
    let d : Datum := Snapshot.toDatum ⟨⟨-0, .warn⟩, [segment], []⟩
    let r := Ring.run { settings := ⟨0, .warn⟩ }
      [.insertSegment segment, .insertSegment loop, .pushSegment loop]
    ∃ loaded, (Ring.load d).value = .ok loaded ∧
      let s := loaded.run [.pushSegment loop]
      Reachable r ∧ Reachable s ∧ (r == s) = true ∧ r.settings.tolerance ≠ s.settings.tolerance ∧
        (r == r) = true ∧ Ring.SameAnswers r s := by
  intro p nan segment loop d r
  have hr : Reachable r := (Reachable.ofSettings (s := ⟨0, .warn⟩) rfl).run _
  have hload : (Ring.load d).value = .ok (Snapshot.ring ⟨⟨-0, .warn⟩, [segment], []⟩) :=
    Ring.load_eq_ok_iff.mpr
      ⟨_, Snapshot.reads _, Settings.check_eq_ok_iff.mpr (by decide +kernel),
        Snapshot.checkPlaces_eq_ok_iff.mpr (by decide +kernel), rfl⟩
  refine ⟨_, hload, ?_⟩
  intro s
  have hs : Reachable s := (Reachable.load hload).run _
  have heq : (r == s) = true := by decide +kernel
  refine ⟨hr, hs, heq, by decide +kernel, ?_, Reachable.equality_spec.2 r s hr hs heq⟩
  exact Reachable.equality_spec.1.refl ⟨r, hr⟩

end MeshRing
