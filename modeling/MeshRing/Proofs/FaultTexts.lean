import MeshRing.Fault
import MeshRing.Proofs.DecimalTexts

/-! Texts of faults begin with words that tell the cause, and the data behind them are set
apart by characters that no number is written with. -/

namespace MeshRing

/-! ## Data in front of a separator -/

theorem toString_inj {m n : ℕ} : toString m = toString n ↔ m = n := by
  rw [Nat.toString_eq_repr, Nat.toString_eq_repr, Nat.repr_inj]

theorem Node.text_inj {m n : Node} : m.text = n.text ↔ m = n := by
  rw [text, text, toString_inj, UInt32.toNat_inj]
  exact ⟨index_injective, congrArg index⟩

section

variable {separator x y : String} {c : Char} {cs : List Char} (h : separator.toList = c :: cs)
include h

/-- What is written without the first character of a separator can be told from what
follows the separator. -/
theorem append_separator_inj {a b : String} (ha : c ∉ a.toList) (hb : c ∉ b.toList) :
    a ++ (separator ++ x) = b ++ (separator ++ y) ↔ a = b ∧ x = y := by
  constructor
  · intro heq
    have hlist := congrArg String.toList heq
    simp only [String.toList_append, h, List.cons_append] at hlist
    have htake := congrArg (List.takeWhile (· != c)) hlist
    rw [Decimal.takeWhile_ne_append_cons ha, Decimal.takeWhile_ne_append_cons hb] at htake
    obtain rfl := String.toList_inj.mp htake
    exact ⟨rfl, by simpa using heq⟩
  · rintro ⟨rfl, rfl⟩
    rfl

variable (hc : c.isDigit = false)
include hc

theorem toString_append_separator_inj {m n : ℕ} :
    toString m ++ (separator ++ x) = toString n ++ (separator ++ y) ↔ m = n ∧ x = y := by
  have hmem (n : ℕ) : c ∉ (toString n).toList := by
    intro hmem
    rw [Nat.toString_eq_repr, Nat.toList_repr] at hmem
    exact Bool.eq_false_iff.mp hc (Decimal.isDigit_of_mem_toDigits hmem)
  rw [append_separator_inj h (hmem m) (hmem n), toString_inj]

theorem Node.text_append_separator_inj {m n : Node} :
    m.text ++ (separator ++ x) = n.text ++ (separator ++ y) ↔ m = n ∧ x = y := by
  rw [text, text, toString_append_separator_inj h hc, ← toString_inj]
  exact and_congr_left' text_inj

theorem Binary64.text_append_separator_inj (hc' : c ∉ ['.', 'e', '-', 'N', 'a', 'i', 'n', 'f'])
    {a b : Binary64} :
    a.text .coordinate ++ (separator ++ x) = b.text .coordinate ++ (separator ++ y) ↔
      a.Same b ∧ x = y := by
  have hl : Decimal.Layout.coordinate.Readable := .inr rfl
  have hmem (a : Binary64) : c ∉ (a.text .coordinate).toList := fun hmem =>
    (mem_text hl hmem).elim (Bool.eq_false_iff.mp hc) hc'
  rw [append_separator_inj h (hmem a) (hmem b), text_eq_iff_same hl]

end

theorem toList_comma : ", ".toList = [',', ' '] := rfl

theorem Node.text_append_comma_inj {m n : Node} {x y : String} :
    m.text ++ (", " ++ x) = n.text ++ (", " ++ y) ↔ m = n ∧ x = y :=
  text_append_separator_inj toList_comma rfl

/-- The same place, NaN coordinates taken as one. -/
def Point.Same (p q : Point) : Prop :=
  p.u.Same q.u ∧ p.v.Same q.v

/-- A place ends with a bracket, so whatever is written behind it can be told apart. -/
theorem Point.text_append_inj {p q : Point} {x y : String} :
    p.text ++ x = q.text ++ y ↔ p.Same q ∧ x = y := by
  have hclose : "]".toList = [']'] := rfl
  simp only [text, String.append_assoc, String.append_right_inj,
    Binary64.text_append_separator_inj toList_comma rfl (by simp),
    Binary64.text_append_separator_inj hclose rfl (by simp), Same, and_assoc]

namespace RingFault

/-- The same fault, NaN coordinates taken as one. -/
def Same : RingFault → RingFault → Prop
  | .nonFiniteCoordinate m p, .nonFiniteCoordinate n q => m = n ∧ p.Same q
  | f, g => f = g

/-! ## Causes -/

/-- What a text begins with: the cause, and the kind of record where that is named first. -/
inductive Cause where
  | degenerateSegment
  | degenerateTriangle
  | nonFiniteCoordinate
  | duplicateSegment
  | duplicateTriangle
  | indexOutOfRange (kind : RecordKind)
  | missingNode
  | invalidGeometry
  | invalidSettings
  | invariantViolation
  deriving DecidableEq

namespace Cause

def lead : Cause → String
  | degenerateSegment => "degenerate segment: both endpoints are node "
  | degenerateTriangle => "degenerate triangle: nodes ("
  | nonFiniteCoordinate => "non-finite uv "
  | duplicateSegment => "duplicate segment ("
  | duplicateTriangle => "duplicate triangle ("
  | indexOutOfRange kind => kind.text ++ " index "
  | missingNode => "node "
  | invalidGeometry => "invalid geometry: "
  | invalidSettings => "invalid ring configuration: "
  | invariantViolation => "ring invariant violated: "

def all : List Cause :=
  [degenerateSegment, degenerateTriangle, nonFiniteCoordinate, duplicateSegment, duplicateTriangle,
    indexOutOfRange .segment, indexOutOfRange .triangle, missingNode, invalidGeometry,
    invalidSettings, invariantViolation]

theorem mem_all (c : Cause) : c ∈ all := by
  cases c with
  | indexOutOfRange kind => cases kind <;> decide
  | _ => decide

/-- The words of one cause never begin those of another. -/
theorem eq_of_isPrefix {c d : Cause} (h : c.lead.toList <+: d.lead.toList) : c = d := by
  have hall : ∀ c ∈ all, ∀ d ∈ all, c.lead.toList <+: d.lead.toList → c = d := by decide +kernel
  exact hall c (mem_all c) d (mem_all d) h

end Cause

def cause : RingFault → Cause
  | .degenerateSegment _ => .degenerateSegment
  | .degenerateTriangle _ _ _ => .degenerateTriangle
  | .nonFiniteCoordinate _ _ => .nonFiniteCoordinate
  | .duplicateSegment _ _ => .duplicateSegment
  | .duplicateTriangle _ _ _ => .duplicateTriangle
  | .indexOutOfRange kind _ _ => .indexOutOfRange kind
  | .missingNode _ => .missingNode
  | .invalidGeometry _ => .invalidGeometry
  | .invalidSettings _ => .invalidSettings
  | .invariantViolation _ => .invariantViolation

/-- What is written behind the cause. -/
def details : RingFault → String
  | .degenerateSegment n => n.text
  | .degenerateTriangle n0 n1 n2 =>
    n0.text ++ ", " ++ n1.text ++ ", " ++ n2.text ++ ") are not distinct"
  | .nonFiniteCoordinate n p => p.text ++ " for node " ++ n.text
  | .duplicateSegment n0 n1 => n0.text ++ ", " ++ n1.text ++ ")"
  | .duplicateTriangle n0 n1 n2 => n0.text ++ ", " ++ n1.text ++ ", " ++ n2.text ++ ")"
  | .indexOutOfRange _ index length =>
    toString index ++ " out of range (len = " ++ toString length ++ ")"
  | .missingNode n => n.text ++ " has no recorded uv in this ring"
  | .invalidGeometry reason => reason
  | .invalidSettings reason => reason
  | .invariantViolation reason => reason

theorem text_eq (f : RingFault) : f.text = f.cause.lead ++ f.details := by
  unfold text
  cases f with
  | _ => simp only [cause, Cause.lead, details, String.append_assoc]

/-- Of two causes that begin one text, one begins the other. -/
theorem cause_eq_of_text_eq {f g : RingFault} (h : f.text = g.text) : f.cause = g.cause := by
  have hlist := congrArg String.toList h
  rw [text_eq, text_eq, String.toList_append, String.toList_append] at hlist
  have hf := List.prefix_append f.cause.lead.toList f.details.toList
  have hg := List.prefix_append g.cause.lead.toList g.details.toList
  rw [hlist] at hf
  obtain h | h := List.prefix_or_prefix_of_prefix hf hg
  · exact Cause.eq_of_isPrefix h
  · exact (Cause.eq_of_isPrefix h).symm

/-! ## Data -/

theorem same_of_details_eq :
    ∀ {f g : RingFault}, f.cause = g.cause → f.details = g.details → f.Same g
  | .degenerateSegment _, .degenerateSegment _, _, h => by
      rw [Node.text_inj.mp h]
      exact rfl
  | .degenerateTriangle _ _ _, .degenerateTriangle _ _ _, _, h => by
      simp only [details, String.append_assoc, Node.text_append_comma_inj, String.append_left_inj,
        Node.text_inj] at h
      obtain ⟨rfl, rfl, rfl⟩ := h
      exact rfl
  | .nonFiniteCoordinate m p, .nonFiniteCoordinate n q, _, h => by
      simp only [details, String.append_assoc, Point.text_append_inj, String.append_right_inj,
        Node.text_inj] at h
      exact h.symm
  | .duplicateSegment _ _, .duplicateSegment _ _, _, h => by
      simp only [details, String.append_assoc, Node.text_append_comma_inj, String.append_left_inj,
        Node.text_inj] at h
      obtain ⟨rfl, rfl⟩ := h
      exact rfl
  | .duplicateTriangle _ _ _, .duplicateTriangle _ _ _, _, h => by
      simp only [details, String.append_assoc, Node.text_append_comma_inj, String.append_left_inj,
        Node.text_inj] at h
      obtain ⟨rfl, rfl, rfl⟩ := h
      exact rfl
  | .indexOutOfRange _ _ _, .indexOutOfRange _ _ _, hcause, h => by
      have hrange : " out of range (len = ".toList = ' ' :: "out of range (len = ".toList := by
        decide +kernel
      simp only [details, String.append_assoc, toString_append_separator_inj hrange rfl,
        String.append_left_inj, toString_inj] at h
      obtain ⟨rfl, rfl⟩ := h
      obtain rfl := Cause.indexOutOfRange.inj hcause
      exact rfl
  | .missingNode _, .missingNode _, _, h => by
      rw [Node.text_inj.mp (String.append_left_inj _ |>.mp h)]
      exact rfl
  | .invalidGeometry _, .invalidGeometry _, _, h => congrArg RingFault.invalidGeometry h
  | .invalidSettings _, .invalidSettings _, _, h => congrArg RingFault.invalidSettings h
  | .invariantViolation _, .invariantViolation _, _, h => congrArg RingFault.invariantViolation h

/-- A text tells its fault, with all its data. -/
theorem text_eq_text_iff {f g : RingFault} : f.text = g.text ↔ f.Same g := by
  constructor
  · intro h
    have hcause := cause_eq_of_text_eq h
    rw [text_eq, text_eq, hcause, String.append_right_inj] at h
    exact same_of_details_eq hcause h
  · intro h
    unfold Same at h
    split at h
    · obtain ⟨rfl, h⟩ := h
      rw [text_eq, text_eq, details, details, String.append_assoc, String.append_assoc,
        Point.text_append_inj.mpr ⟨h, rfl⟩]
      rfl
    · rw [h]

/-- A coordinate beside a NaN shows the sign of a zero, and the NaN hides its own. -/
example : let nan : Binary64 := ⟨0x7ff8000000000000⟩
    let other : Binary64 := ⟨0xfff0000000000001⟩
    let text (x y : Binary64) := (nonFiniteCoordinate ⟨7⟩ ⟨x, y⟩).text
    text nan ⟨0⟩ = text other ⟨0⟩ ∧ text nan ⟨0⟩ ≠ text nan ⟨0x8000000000000000⟩ := by
  decide +kernel

end RingFault

end MeshRing
