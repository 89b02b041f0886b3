import MeshRing.Proofs.Loading

/-! The snapshot grammar, said without the readers: which trees present which values.
Readers accept a tree exactly when it presents a value, and return that value. -/

namespace MeshRing

/-- No object in the tree has two entries under one key. -/
inductive Datum.UniqueKeys : Datum → Prop
  | null : UniqueKeys .null
  | bool (b : Bool) : UniqueKeys (.bool b)
  | int (n : Int) : UniqueKeys (.int n)
  | float (x : Binary64) : UniqueKeys (.float x)
  | text (s : String) : UniqueKeys (.text s)
  | list {items : List Datum} : (∀ d ∈ items, UniqueKeys d) → UniqueKeys (.list items)
  | object {entries : List (String × Datum)} :
      (entries.map Prod.fst).Nodup → (∀ e ∈ entries, UniqueKeys e.2) → UniqueKeys (.object entries)

namespace Datum.UniqueKeys

attribute [simp] null bool int float text

@[simp] theorem list_iff {items : List Datum} :
    (Datum.list items).UniqueKeys ↔ ∀ d ∈ items, d.UniqueKeys := by
  constructor
  · intro h
    cases h
    assumption
  · exact .list

@[simp] theorem object_iff {entries : List (String × Datum)} :
    (Datum.object entries).UniqueKeys ↔
      (entries.map Prod.fst).Nodup ∧ ∀ e ∈ entries, e.2.UniqueKeys := by
  constructor
  · intro h
    cases h
    constructor <;> assumption
  · rintro ⟨hkeys, hentries⟩
    exact .object hkeys hentries

end Datum.UniqueKeys

/-! ## Presentations -/

/-- Which trees present which values of a type. -/
abbrev Presentation (α : Type) := Datum → α → Prop

namespace Presentation

variable {α : Type}

inductive Two (presents : Presentation α) : Presentation (α × α)
  | list {x y : Datum} {a b : α} :
      presents x a → presents y b → Two presents (.list [x, y]) (a, b)

inductive Three (presents : Presentation α) : Presentation (α × α × α)
  | list {x y z : Datum} {a b c : α} :
      presents x a → presents y b → presents z c → Three presents (.list [x, y, z]) (a, b, c)

inductive Many (presents : Presentation α) : Presentation (List α)
  | list {items : List Datum} {as : List α} :
      List.Forall₂ presents items as → Many presents (.list items) as

/-- A record of two fields stands as the list of both, or as an object with an entry for
each, whatever else the object holds and in whatever order. -/
inductive Fields {β : Type} (name : String) (presents : Presentation α) (name' : String)
    (presents' : Presentation β) : Presentation (α × β)
  | inOrder {x y : Datum} {a : α} {b : β} :
      presents x a → presents' y b → Fields name presents name' presents' (.list [x, y]) (a, b)
  | byName {entries : List (String × Datum)} {x y : Datum} {a : α} {b : β} :
      (name, x) ∈ entries → (name', y) ∈ entries → presents x a → presents' y b →
      Fields name presents name' presents' (.object entries) (a, b)

/-- A variant stands as its name, or as an object that holds null under its name alone. -/
inductive Variant (name : α → String) : Presentation α
  | text (a : α) : Variant name (.text (name a)) a
  | object (a : α) : Variant name (.object [(name a, .null)]) a

end Presentation

open Presentation

/-- A node is an integer from `0` to `2 ^ 32 - 1`. -/
inductive Node.Presents : Presentation Node
  | int (index : UInt32) : Node.Presents (.int index.toNat) ⟨index⟩

inductive Binary64.Presents : Presentation Binary64
  | float (x : Binary64) : Binary64.Presents (.float x) x
  | int (n : Int) : Binary64.Presents (.int n) (.ofInt n)

inductive Point.Presents : Presentation Point
  | list {x y : Datum} {u v : Binary64} :
      Binary64.Presents x u → Binary64.Presents y v → Point.Presents (.list [x, y]) ⟨u, v⟩

def RecordKind.Presents : Presentation RecordKind :=
  Variant RecordKind.name

def DuplicatePolicy.Presents : Presentation DuplicatePolicy :=
  Variant DuplicatePolicy.name

def Settings.Presents : Presentation Settings := fun d s =>
  ∃ tolerance : Binary64, tolerance.toFloat = s.tolerance ∧
    Fields "tolerance" Binary64.Presents "duplicates" DuplicatePolicy.Presents d
      (tolerance, s.duplicates)

def Segment.Presents : Presentation Segment := fun d s =>
  Fields "nodes" (Two Node.Presents) "uv" (Two Point.Presents) d ((s.n0, s.n1), (s.p0, s.p1))

def Triangle.Presents : Presentation Triangle := fun d t =>
  Fields "nodes" (Three Node.Presents) "uv2" Point.Presents d ((t.n0, t.n1, t.n2), t.apex)

/-- Only an object may leave the settings out, which are then the default. -/
inductive Snapshot.Presents : Presentation Snapshot
  | inOrder {x y z : Datum} {s : Snapshot} :
      Settings.Presents x s.settings → Many Segment.Presents y s.segments →
      Many Triangle.Presents z s.triangles → Snapshot.Presents (.list [x, y, z]) s
  | byName {entries : List (String × Datum)} {x y z : Datum} {s : Snapshot} :
      ("config", x) ∈ entries → ("segments", y) ∈ entries → ("triangles", z) ∈ entries →
      Settings.Presents x s.settings → Many Segment.Presents y s.segments →
      Many Triangle.Presents z s.triangles → Snapshot.Presents (.object entries) s
  | byNameDefault {entries : List (String × Datum)} {y z : Datum} {segments : List Segment}
      {triangles : List Triangle} :
      "config" ∉ entries.map Prod.fst → ("segments", y) ∈ entries → ("triangles", z) ∈ entries →
      Many Segment.Presents y segments → Many Triangle.Presents z triangles →
      Snapshot.Presents (.object entries) ⟨{}, segments, triangles⟩

/-! ## What readers accept -/

open Outcome

/-- Where keys are unique, the order of the entries does not matter. -/
theorem lookup_eq_some_iff_mem {entries : List (String × Datum)}
    (h : (entries.map Prod.fst).Nodup) {name : String} {d : Datum} :
    entries.lookup name = some d ↔ (name, d) ∈ entries := by
  induction entries with
  | nil => simp
  | cons e rest ih =>
      obtain ⟨hfresh, hrest⟩ := List.nodup_cons.mp h
      rw [List.lookup_cons, List.mem_cons]
      by_cases hname : name = e.1
      · subst hname
        have habsent : (e.1, d) ∉ rest := fun hmem => hfresh (List.mem_map.mpr ⟨_, hmem, rfl⟩)
        simp [habsent, Prod.ext_iff, eq_comm]
      · have hne : (name, d) ≠ e := fun he => hname (congrArg Prod.fst he)
        simp [beq_eq_false_iff_ne.mpr hname, hne, ih hrest]

namespace Reader

variable {α β : Type} {read : Reader α} {presents : Presentation α}

/-- On trees with unique keys, the reader returns exactly the values that the tree presents. -/
def Accepts (read : Reader α) (presents : Presentation α) : Prop :=
  ∀ d : Datum, d.UniqueKeys → ∀ a, read d = .ok a ↔ presents d a

theorem items_eq_ok_iff {body : ItemReader α} {data : List Datum} {a : α} :
    items body data = .ok a ↔ body.run data = .ok (a, []) := by
  rw [items, bind_eq_ok_iff]
  constructor
  · rintro ⟨⟨b, rest⟩, hrun, h⟩
    cases rest with
    | nil => rw [hrun, pure_eq_ok_iff.mp h]
    | cons item rest => cases h
  · intro hrun
    exact ⟨_, hrun, rfl⟩

theorem run_next_bind_eq_ok_iff {f : α → ItemReader β} {data : List Datum} {x : β × List Datum} :
    (next read >>= f).run data = .ok x ↔
      ∃ item rest a, data = item :: rest ∧ read item = .ok a ∧ (f a).run rest = .ok x := by
  rw [StateT.run_bind]
  cases data with
  | nil =>
      constructor
      · intro h
        cases h
      · rintro ⟨_, _, _, h, _⟩
        cases h
  | cons item rest => simp [run_next_cons, bind_eq_ok_iff]

theorem fixed_eq_ok_iff {body : ItemReader α} {d : Datum} {a : α} :
    fixed body d = .ok a ↔ ∃ data, d = .list data ∧ body.run data = .ok (a, []) := by
  cases d <;> simp [fixed, items_eq_ok_iff]

theorem record_eq_ok_iff {inOrder : ItemReader α}
    {byName : List (String × Datum) → Except LoadFault α} {d : Datum} {a : α} :
    record inOrder byName d = .ok a ↔
      (∃ data, d = .list data ∧ inOrder.run data = .ok (a, [])) ∨
        ∃ entries, d = .object entries ∧ byName entries = .ok a := by
  cases d <;> simp [record, items_eq_ok_iff]

theorem require_eq_ok_iff {name : String} {o : Option α} {a : α} :
    require name o = .ok a ↔ o = some a := by
  cases o <;> simp [require]

/-- Only an absent field reads as none: one that cannot be read is a fault. -/
theorem field?_eq_ok_none_iff {entries : List (String × Datum)} {name : String} :
    field? entries name read = .ok none ↔ name ∉ entries.map Prod.fst := by
  have hlookup : entries.lookup name = none ↔ name ∉ entries.map Prod.fst := by
    rw [List.lookup_eq_none_iff, List.mem_map]
    simp only [bne_iff_ne, not_exists, not_and, ne_eq, @eq_comm _ name]
  rw [← hlookup, field?]
  cases entries.lookup name with
  | none => simp
  | some d => simp [map_eq_ok_iff]

/-- Two fields are read by name when both are there and both can be read, whichever
is looked at first. -/
theorem byName_eq_ok_iff {γ : Type} {read' : Reader β} {entries : List (String × Datum)}
    {name name' : String} {f : α → β → γ} {c : γ} :
    (do
      let a? ← field? entries name read
      let b? ← field? entries name' read'
      let a ← require name a?
      let b ← require name' b?
      return f a b) = .ok c ↔
    ∃ a b, field? entries name read = .ok (some a) ∧
      field? entries name' read' = .ok (some b) ∧ f a b = c := by
  simp only [bind_eq_ok_iff, require_eq_ok_iff, pure_eq_ok_iff]
  constructor
  · rintro ⟨_, ha, _, hb, a, rfl, b, rfl, hc⟩
    exact ⟨a, b, ha, hb, hc⟩
  · rintro ⟨a, b, ha, hb, hc⟩
    exact ⟨_, ha, _, hb, a, rfl, b, rfl, hc⟩

namespace Accepts

theorem field? (h : Accepts read presents) {entries : List (String × Datum)}
    (hkeys : (Datum.object entries).UniqueKeys) {name : String} {a : α} :
    Reader.field? entries name read = .ok (some a) ↔ ∃ d, (name, d) ∈ entries ∧ presents d a := by
  obtain ⟨hnodup, hentries⟩ := Datum.UniqueKeys.object_iff.mp hkeys
  have hread : Reader.field? entries name read = .ok (some a) ↔
      ∃ d, (name, d) ∈ entries ∧ read d = .ok a := by
    simp only [← lookup_eq_some_iff_mem hnodup, Reader.field?]
    cases entries.lookup name with
    | none => simp
    | some d => simp [map_eq_ok_iff]
  rw [hread]
  exact exists_congr fun d => and_congr_right fun hd => h d (hentries _ hd) a

theorem two (h : Accepts read presents) : Accepts (Reader.two read) (Two presents) := by
  intro d hd ab
  simp only [Reader.two, fixed_eq_ok_iff, run_next_bind_eq_ok_iff, StateT.run_pure, pure_eq_ok_iff,
    Prod.mk.injEq]
  constructor
  · rintro ⟨_, rfl, x, _, a, rfl, hx, y, _, b, rfl, hy, rfl, rfl⟩
    have hitems := Datum.UniqueKeys.list_iff.mp hd
    exact .list ((h x (hitems x (by simp)) a).mp hx) ((h y (hitems y (by simp)) b).mp hy)
  · rintro ⟨hx, hy⟩
    have hitems := Datum.UniqueKeys.list_iff.mp hd
    exact ⟨_, rfl, _, _, _, rfl, (h _ (hitems _ (by simp)) _).mpr hx,
      _, _, _, rfl, (h _ (hitems _ (by simp)) _).mpr hy, rfl, rfl⟩

theorem three (h : Accepts read presents) : Accepts (Reader.three read) (Three presents) := by
  intro d hd abc
  simp only [Reader.three, fixed_eq_ok_iff, run_next_bind_eq_ok_iff, StateT.run_pure,
    pure_eq_ok_iff, Prod.mk.injEq]
  constructor
  · rintro ⟨_, rfl, x, _, a, rfl, hx, y, _, b, rfl, hy, z, _, c, rfl, hz, rfl, rfl⟩
    have hitems := Datum.UniqueKeys.list_iff.mp hd
    exact .list ((h x (hitems x (by simp)) a).mp hx) ((h y (hitems y (by simp)) b).mp hy)
      ((h z (hitems z (by simp)) c).mp hz)
  · rintro ⟨hx, hy, hz⟩
    have hitems := Datum.UniqueKeys.list_iff.mp hd
    exact ⟨_, rfl, _, _, _, rfl, (h _ (hitems _ (by simp)) _).mpr hx,
      _, _, _, rfl, (h _ (hitems _ (by simp)) _).mpr hy,
      _, _, _, rfl, (h _ (hitems _ (by simp)) _).mpr hz, rfl, rfl⟩

theorem mapM_eq_ok_iff (h : Accepts read presents) {items : List Datum}
    (hitems : ∀ d ∈ items, d.UniqueKeys) {as : List α} :
    items.mapM read = .ok as ↔ List.Forall₂ presents items as := by
  induction items generalizing as with
  | nil =>
      rw [List.mapM_nil, pure_eq_ok_iff, List.forall₂_nil_left_iff]
      exact eq_comm
  | cons d items ih =>
      obtain ⟨hd, hrest⟩ := List.forall_mem_cons.mp hitems
      simp only [List.mapM_cons, bind_eq_ok_iff, pure_eq_ok_iff, ih hrest, h d hd,
        List.forall₂_cons_left_iff]
      constructor
      · rintro ⟨a, ha, as, has, rfl⟩
        exact ⟨a, as, ha, has, rfl⟩
      · rintro ⟨a, as, ha, has, rfl⟩
        exact ⟨a, ha, as, has, rfl⟩

theorem list (h : Accepts read presents) : Accepts (Reader.list read) (Many presents) := by
  intro d hd as
  constructor
  · intro hread
    cases d with
    | list items => exact .list ((h.mapM_eq_ok_iff (Datum.UniqueKeys.list_iff.mp hd)).mp hread)
    | _ => cases hread
  · rintro ⟨hitems⟩
    exact (h.mapM_eq_ok_iff (Datum.UniqueKeys.list_iff.mp hd)).mpr hitems

/-- An object with no entry or with several presents no variant. -/
theorem variant {ofName? : String → Option α} {name : α → String}
    (h : ∀ s a, ofName? s = some a ↔ s = name a) : Accepts (.variant ofName?) (Variant name) := by
  have hnamed (s : String) (a : α) : named ofName? s = .ok a ↔ s = name a := by
    rw [← h, named]
    cases ofName? s <;> simp
  intro d _ a
  constructor
  · intro hread
    cases d with
    | text s =>
        cases (hnamed s a).mp hread
        exact .text a
    | object entries =>
        match entries, hread with
        | [(s, content)], hread =>
            obtain ⟨b, hb, hcontent⟩ := bind_eq_ok_iff.mp hread
            cases (hnamed s b).mp hb
            cases content with
            | null =>
                cases pure_eq_ok_iff.mp hcontent
                exact .object a
            | _ => cases hcontent
    | _ => cases hread
  · rintro (_ | _)
    · exact (hnamed _ a).mpr rfl
    · exact bind_eq_ok_iff.mpr ⟨a, (hnamed _ a).mpr rfl, rfl⟩

/-- A reader of records that reads the same two fields from lists and from objects. -/
theorem record {γ : Type} {read' : Reader β} {presents' : Presentation β}
    (h : Accepts read presents) (h' : Accepts read' presents') {name name' : String}
    {inOrder : ItemReader γ} {byName : List (String × Datum) → Except LoadFault γ} {f : α → β → γ}
    (hinOrder : inOrder = do
      let a ← next read
      let b ← next read'
      return f a b)
    (hbyName : ∀ entries c, byName entries = .ok c ↔ ∃ a b,
      Reader.field? entries name read = .ok (some a) ∧
        Reader.field? entries name' read' = .ok (some b) ∧ f a b = c) :
    Accepts (Reader.record inOrder byName) fun d c =>
      ∃ a b, Fields name presents name' presents' d (a, b) ∧ f a b = c := by
  intro d hd c
  rw [hinOrder]
  simp only [record_eq_ok_iff, hbyName, run_next_bind_eq_ok_iff, StateT.run_pure, pure_eq_ok_iff,
    Prod.mk.injEq]
  constructor
  · rintro (⟨_, rfl, x, _, a, rfl, hx, y, _, b, rfl, hy, rfl, rfl⟩ |
      ⟨entries, rfl, a, b, ha, hb, rfl⟩)
    · have hitems := Datum.UniqueKeys.list_iff.mp hd
      have hxa := (h x (hitems x (by simp)) a).mp hx
      have hyb := (h' y (hitems y (by simp)) b).mp hy
      exact ⟨a, b, .inOrder hxa hyb, rfl⟩
    · obtain ⟨x, hx, hxa⟩ := (h.field? hd).mp ha
      obtain ⟨y, hy, hyb⟩ := (h'.field? hd).mp hb
      exact ⟨a, b, .byName hx hy hxa hyb, rfl⟩
  · rintro ⟨a, b, ⟨hxa, hyb⟩ | ⟨hx, hy, hxa, hyb⟩, rfl⟩
    · have hitems := Datum.UniqueKeys.list_iff.mp hd
      exact .inl ⟨_, rfl, _, _, a, rfl, (h _ (hitems _ (by simp)) a).mpr hxa,
        _, _, b, rfl, (h' _ (hitems _ (by simp)) b).mpr hyb, rfl, rfl⟩
    · exact .inr ⟨_, rfl, a, b, (h.field? hd).mpr ⟨_, hx, hxa⟩,
        (h'.field? hd).mpr ⟨_, hy, hyb⟩, rfl⟩

/-- Where both fields can be taken from the record, they are the ones that it presents. -/
theorem record_of_fields {γ : Type} {read' : Reader β} {presents' : Presentation β}
    (h : Accepts read presents) (h' : Accepts read' presents') {name name' : String}
    {f : α → β → γ} (fields : γ → α × β) (hf : ∀ a b c, f a b = c ↔ (a, b) = fields c) :
    Accepts
      (Reader.record
        (do
          let a ← next read
          let b ← next read'
          return f a b)
        fun entries => do
          let a? ← Reader.field? entries name read
          let b? ← Reader.field? entries name' read'
          let a ← require name a?
          let b ← require name' b?
          return f a b)
      fun d c => Fields name presents name' presents' d (fields c) := by
  intro d hd c
  rw [h.record h' rfl (fun _ _ => byName_eq_ok_iff) d hd c]
  constructor
  · rintro ⟨a, b, hfields, hc⟩
    rwa [(hf a b c).mp hc] at hfields
  · intro hfields
    exact ⟨_, _, hfields, (hf _ _ c).mpr rfl⟩

end Accepts

end Reader

open Reader

/-! ## What is read as what -/

theorem Node.accepts : Accepts ofDatum Presents := by
  intro d _ n
  constructor
  · intro hread
    cases d with
    | int k =>
        by_cases hk : 0 ≤ k ∧ k.toNat < UInt32.size
        · obtain ⟨index, rfl⟩ : ∃ index : UInt32, k = index.toNat :=
            ⟨.ofNat k.toNat, by rw [UInt32.toNat_ofNat_of_lt' hk.2, Int.toNat_of_nonneg hk.1]⟩
          cases (Node.reads ⟨index⟩).symm.trans hread
          exact .int index
        · rw [ofDatum, if_neg hk] at hread
          cases hread
    | _ => cases hread
  · rintro ⟨index⟩
    exact Node.reads ⟨index⟩

theorem Binary64.accepts : Accepts ofDatum Presents := by
  intro d _ x
  constructor
  · intro hread
    cases d with
    | float y =>
        cases hread
        exact .float x
    | int n =>
        cases hread
        exact .int n
    | _ => cases hread
  · rintro (_ | _) <;> rfl

theorem Point.accepts : Accepts ofDatum Presents := by
  intro d hd p
  rw [ofDatum]
  simp only [bind_eq_ok_iff, pure_eq_ok_iff, Binary64.accepts.two d hd]
  constructor
  · rintro ⟨⟨u, v⟩, ⟨hu, hv⟩, rfl⟩
    exact .list hu hv
  · rintro ⟨hu, hv⟩
    exact ⟨_, .list hu hv, rfl⟩

theorem find?_name_eq_some_iff {α : Type} {all : List α} {name : α → String} (hall : ∀ a, a ∈ all)
    (hname : name.Injective) (s : String) (a : α) :
    all.find? (fun a => name a == s) = some a ↔ s = name a := by
  have hfound {b : α} (h : all.find? (fun a => name a == s) = some b) : name b = s := by
    simpa using List.find?_some h
  constructor
  · intro h
    exact (hfound h).symm
  · rintro rfl
    have hsome : (all.find? fun b => name b == name a).isSome = true :=
      List.find?_isSome.mpr ⟨a, hall a, by simp⟩
    obtain ⟨b, hb⟩ := Option.isSome_iff_exists.mp hsome
    rw [hb, hname (hfound hb)]

theorem RecordKind.accepts : Accepts ofDatum Presents := by
  refine .variant (find?_name_eq_some_iff ?_ ?_)
  · rintro ⟨⟩ <;> decide
  · rintro ⟨⟩ ⟨⟩ h <;> simp_all [name]

theorem DuplicatePolicy.accepts : Accepts ofDatum Presents := by
  refine .variant (find?_name_eq_some_iff ?_ ?_)
  · rintro ⟨⟩ <;> decide
  · rintro ⟨⟩ ⟨⟩ h <;> simp_all [name]

theorem Settings.accepts : Accepts ofDatum Presents := by
  have hfields : Accepts ofDatum fun d s => ∃ a b, Fields "tolerance" Binary64.Presents
      "duplicates" DuplicatePolicy.Presents d (a, b) ∧ Settings.mk a.toFloat b = s := by
    refine Binary64.accepts.record DuplicatePolicy.accepts rfl fun entries c => ?_
    simp only [bind_eq_ok_iff, require_eq_ok_iff, pure_eq_ok_iff]
    constructor
    · rintro ⟨_, hb, _, ha, a, rfl, b, rfl, hc⟩
      exact ⟨a, b, ha, hb, hc⟩
    · rintro ⟨a, b, ha, hb, hc⟩
      exact ⟨_, hb, _, ha, a, rfl, b, rfl, hc⟩
  intro d hd s
  rw [hfields d hd]
  constructor
  · rintro ⟨tolerance, _, h, rfl⟩
    exact ⟨tolerance, rfl, h⟩
  · rintro ⟨tolerance, htolerance, h⟩
    exact ⟨tolerance, s.duplicates, h, by rw [htolerance]⟩

theorem Segment.accepts : Accepts ofDatum Presents := by
  refine Node.accepts.two.record_of_fields Point.accepts.two
    (fun s : Segment => ((s.n0, s.n1), (s.p0, s.p1))) fun a b s => ?_
  constructor
  · rintro rfl
    rfl
  · rintro ⟨⟩
    rfl

theorem Triangle.accepts : Accepts ofDatum Presents := by
  refine Node.accepts.three.record_of_fields Point.accepts
    (fun t : Triangle => ((t.n0, t.n1, t.n2), t.apex)) fun a b t => ?_
  constructor
  · rintro rfl
    rfl
  · rintro ⟨⟩
    rfl

/-- A list has to hold all three parts. In an object absent settings are read as none,
which is not a fault. -/
theorem Snapshot.accepts : Accepts ofDatum Presents := by
  have hsegments := Segment.accepts.list
  have htriangles := Triangle.accepts.list
  intro d hd s
  rw [ofDatum, record_eq_ok_iff]
  simp only [run_next_bind_eq_ok_iff, bind_eq_ok_iff, require_eq_ok_iff, StateT.run_pure,
    pure_eq_ok_iff, Prod.mk.injEq]
  constructor
  · rintro (⟨_, rfl, x, _, settings, rfl, hx, y, _, segments, rfl, hy, z, _, triangles, rfl, hz,
        rfl, rfl⟩ |
      ⟨entries, rfl, settings?, hx, _, hy, _, hz, segments, rfl, triangles, rfl, rfl⟩)
    · have hitems := Datum.UniqueKeys.list_iff.mp hd
      exact .inOrder ((Settings.accepts x (hitems x (by simp)) _).mp hx)
        ((hsegments y (hitems y (by simp)) _).mp hy) ((htriangles z (hitems z (by simp)) _).mp hz)
    · obtain ⟨y, hy, hsegments⟩ := (hsegments.field? hd).mp hy
      obtain ⟨z, hz, htriangles⟩ := (htriangles.field? hd).mp hz
      cases settings? with
      | none => exact .byNameDefault (field?_eq_ok_none_iff.mp hx) hy hz hsegments htriangles
      | some settings =>
          obtain ⟨x, hx, hsettings⟩ := (Settings.accepts.field? hd).mp hx
          exact .byName hx hy hz hsettings hsegments htriangles
  · rintro (⟨hx, hy, hz⟩ | ⟨hx, hy, hz, hsettings, hs, ht⟩ | ⟨hx, hy, hz, hs, ht⟩)
    · have hitems := Datum.UniqueKeys.list_iff.mp hd
      exact .inl ⟨_, rfl, _, _, _, rfl, (Settings.accepts _ (hitems _ (by simp)) _).mpr hx,
        _, _, _, rfl, (hsegments _ (hitems _ (by simp)) _).mpr hy,
        _, _, _, rfl, (htriangles _ (hitems _ (by simp)) _).mpr hz, rfl, rfl⟩
    · exact .inr ⟨_, rfl, _, (Settings.accepts.field? hd).mpr ⟨_, hx, hsettings⟩,
        _, (hsegments.field? hd).mpr ⟨_, hy, hs⟩, _, (htriangles.field? hd).mpr ⟨_, hz, ht⟩,
        _, rfl, _, rfl, rfl⟩
    · exact .inr ⟨_, rfl, _, field?_eq_ok_none_iff.mpr hx,
        _, (hsegments.field? hd).mpr ⟨_, hy, hs⟩, _, (htriangles.field? hd).mpr ⟨_, hz, ht⟩,
        _, rfl, _, rfl, rfl⟩

/-! ## Loading -/

namespace Snapshot

theorem ring_eq_run (s : Snapshot) : s.ring = Ring.run { settings := s.settings } s.pushes := by
  rw [← pushAll_value, pushAll_eq]

theorem snapshot_ring (s : Snapshot) : s.ring.snapshot = s := rfl

end Snapshot

/-- What can be read from a tree and what can be loaded from it. -/
structure GrammarSpec (d : Datum) : Prop where
  node : ∀ n, Node.ofDatum d = .ok n ↔ Node.Presents d n
  kind : ∀ k, RecordKind.ofDatum d = .ok k ↔ RecordKind.Presents d k
  policy : ∀ p, DuplicatePolicy.ofDatum d = .ok p ↔ DuplicatePolicy.Presents d p
  settings : ∀ s, Settings.ofDatum d = .ok s ↔ Settings.Presents d s
  segment : ∀ s, Segment.ofDatum d = .ok s ↔ Segment.Presents d s
  triangle : ∀ t, Triangle.ofDatum d = .ok t ↔ Triangle.Presents d t
  loads_iff : (∃ r, (Ring.load d).value = .ok r) ↔ ∃ s, Snapshot.Presents d s ∧
    ¬ s.settings.Unusable ∧ ∀ place ∈ s.places, place.2.isFinite = true
  /-- The ring that is loaded is the one of the records presented. -/
  load_eq_ok_iff : ∀ r, (Ring.load d).value = .ok r ↔ ∃ s, Snapshot.Presents d s ∧
    ¬ s.settings.Unusable ∧ (∀ place ∈ s.places, place.2.isFinite = true) ∧
      r = Ring.run { settings := s.settings } s.pushes ∧ r.snapshot = s

/-- Readers and the loader accept their grammar, and nothing else. -/
theorem Datum.UniqueKeys.grammar_spec {d : Datum} (h : d.UniqueKeys) : GrammarSpec d := by
  have hload (r : Ring) : (Ring.load d).value = .ok r ↔ ∃ s, Snapshot.Presents d s ∧
      ¬ s.settings.Unusable ∧ (∀ place ∈ s.places, place.2.isFinite = true) ∧ r = s.ring := by
    simp only [Ring.load_eq_ok_iff, Snapshot.accepts d h, Settings.check_eq_ok_iff_usable,
      Snapshot.checkPlaces_eq_ok_iff]
  exact {
    node := Node.accepts d h
    kind := RecordKind.accepts d h
    policy := DuplicatePolicy.accepts d h
    settings := Settings.accepts d h
    segment := Segment.accepts d h
    triangle := Triangle.accepts d h
    loads_iff := by
      constructor
      · rintro ⟨r, hr⟩
        obtain ⟨s, hs, husable, hplaces, _⟩ := (hload r).mp hr
        exact ⟨s, hs, husable, hplaces⟩
      · rintro ⟨s, hs, husable, hplaces⟩
        exact ⟨s.ring, (hload _).mpr ⟨s, hs, husable, hplaces, rfl⟩⟩
    load_eq_ok_iff r := by
      rw [hload]
      refine exists_congr fun s => ?_
      constructor
      · rintro ⟨hs, husable, hplaces, rfl⟩
        exact ⟨hs, husable, hplaces, s.ring_eq_run, s.snapshot_ring⟩
      · rintro ⟨hs, husable, hplaces, hr, _⟩
        exact ⟨hs, husable, hplaces, hr.trans s.ring_eq_run.symm⟩ }

/-- An object without settings, whose entries stand in no order among others
that are passed over. -/
theorem Datum.UniqueKeys.grammar_spec_shuffled :
    let d : Datum := .object [
      ("triangles", .list []),
      ("extra", .object [("config", .null)]),
      ("segments", .list [.object [
        ("uv", .list [.list [.int (-2), .int 9007199254740993], .list [.int 0, .float ⟨1⟩]]),
        ("", .bool true),
        ("nodes", .list [.int 7, .int 4294967295])]])]
    let s : Snapshot := ⟨{}, [⟨⟨7⟩, ⟨4294967295⟩, ⟨.ofInt (-2), .ofInt 9007199254740992⟩,
      ⟨.ofInt 0, ⟨1⟩⟩⟩], []⟩
    d.UniqueKeys ∧ GrammarSpec d ∧ Snapshot.Presents d s ∧ ∃ r, (Ring.load d).value = .ok r := by
  intro d s
  have hd : d.UniqueKeys := by simp [d]
  have h : GrammarSpec d := hd.grammar_spec
  have hs : Snapshot.Presents d s := (Snapshot.accepts d hd s).mp (by decide +kernel)
  exact ⟨hd, h, hs, h.loads_iff.mpr ⟨s, hs, by decide +kernel, by decide +kernel⟩⟩

end MeshRing
