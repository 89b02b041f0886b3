import Std.Data.ExtTreeMap

/-! # Nodes and their order -/

namespace MeshRing

/-- A mesh node, named by its 32-bit index. -/
structure Node where
  index : UInt32
  deriving DecidableEq, Inhabited

namespace Node

instance : Ord Node := ⟨compareOn Node.index⟩

instance : Std.TransOrd Node := inferInstanceAs (Std.TransCmp (compareOn Node.index))

theorem index_injective {m n : Node} (h : m.index = n.index) : m = n := by
  cases m; cases n; exact congrArg Node.mk h

instance : Std.LawfulEqOrd Node where
  eq_of_compare h := index_injective (Std.LawfulEqOrd.eq_of_compare (α := UInt32) h)

instance : LE Node := ⟨fun m n => m.index ≤ n.index⟩

instance (m n : Node) : Decidable (m ≤ n) :=
  inferInstanceAs (Decidable (m.index ≤ n.index))

/-- The text of a node in messages: its bare index. -/
def text (n : Node) : String :=
  toString n.index.toNat

def label (n : Node) : String :=
  "NodeId(" ++ n.text ++ ")"

/-- Puts a node in front of the first one that is not below it. -/
def insertAscending (n : Node) : List Node → List Node
  | [] => [n]
  | m :: rest => if n ≤ m then n :: m :: rest else m :: insertAscending n rest

/-- The nodes in ascending order, repeated ones included. -/
def ascending (nodes : List Node) : List Node :=
  nodes.foldr insertAscending []

theorem insertAscending_perm (n : Node) (nodes : List Node) :
    (insertAscending n nodes).Perm (n :: nodes) := by
  induction nodes with
  | nil => exact .refl _
  | cons m rest ih =>
      simp only [insertAscending]
      split
      · exact .refl _
      · exact (ih.cons m).trans (.swap n m rest)

theorem ascending_perm (nodes : List Node) : (ascending nodes).Perm nodes := by
  induction nodes with
  | nil => exact .refl _
  | cons n rest ih => exact (insertAscending_perm n _).trans (ih.cons n)

theorem le_antisymm {m n : Node} (h : m ≤ n) (h' : n ≤ m) : m = n :=
  index_injective (UInt32.le_antisymm h h')

theorem le_trans {l m n : Node} (h : l ≤ m) (h' : m ≤ n) : l ≤ n :=
  UInt32.le_trans h h'

theorem le_of_not_le {m n : Node} (h : ¬ m ≤ n) : n ≤ m :=
  (UInt32.le_total n.index m.index).resolve_right h

theorem insertAscending_pairwise (n : Node) {nodes : List Node} (h : nodes.Pairwise (· ≤ ·)) :
    (insertAscending n nodes).Pairwise (· ≤ ·) := by
  induction nodes with
  | nil => simp [insertAscending]
  | cons m rest ih =>
      obtain ⟨hm, hr⟩ := List.pairwise_cons.mp h
      simp only [insertAscending]
      split
      · rename_i hn
        refine List.pairwise_cons.mpr ⟨fun x hx => ?_, h⟩
        rcases List.mem_cons.mp hx with rfl | hx
        · exact hn
        · exact le_trans hn (hm x hx)
      · rename_i hn
        refine List.pairwise_cons.mpr ⟨fun x hx => ?_, ih hr⟩
        rcases List.mem_cons.mp ((insertAscending_perm n rest).mem_iff.mp hx) with rfl | hx
        · exact le_of_not_le hn
        · exact hm x hx

theorem ascending_pairwise (nodes : List Node) : (ascending nodes).Pairwise (· ≤ ·) := by
  induction nodes with
  | nil => exact .nil
  | cons n rest ih => exact insertAscending_pairwise n ih

/-- Two records span the same nodes exactly when their sorted nodes are equal: sorting
forgets the order and nothing else. -/
theorem ascending_eq_iff {xs ys : List Node} : ascending xs = ascending ys ↔ xs.Perm ys := by
  constructor
  · intro h
    exact (ascending_perm xs).symm.trans (h ▸ ascending_perm ys)
  · intro h
    refine List.Perm.eq_of_pairwise (fun a b _ _ => le_antisymm) (ascending_pairwise xs)
      (ascending_pairwise ys) ?_
    exact (ascending_perm xs).trans (h.trans (ascending_perm ys).symm)

end Node

end MeshRing
