import CubeQuery.Expr.CrossJoin
import Mathlib.Algebra.Group.Basic
import Mathlib.Data.List.Forall2

/-!
# What a cross join stands for

A cross join is written as one call, as calls within calls, or with the operator `*`. In every
meaning that takes all three for the same associative product (`Multiplies`) it stands for the
product of its operands, from the first to the last (`crossJoin_product`). A bare member among them
stands for the set of it.
-/

namespace CubeQuery.Expr

universe u

variable {M : Type u} [Semigroup M]

/-! ## Products -/

/-- The product of a list, from left to right. -/
def product? : List M → Option M
  | [] => none
  | m :: ms => some (ms.foldl (· * ·) m)

theorem product?_append {ms ns : List M} {a b : M} (ha : product? ms = some a)
    (hb : product? ns = some b) : product? (ms ++ ns) = some (a * b) := by
  cases ms with
  | nil => cases ha
  | cons m ms =>
    cases ns with
    | nil => cases hb
    | cons n ns =>
      cases ha
      cases hb
      rw [List.cons_append, product?, List.foldl_append, List.foldl_cons, List.foldl_assoc]

/-- A meaning in which all ways to write a cross join are the same product. -/
structure Multiplies (meaning : Expr → M) : Prop where
  crossJoin (a b : Expr) : meaning (function "CrossJoin" [a, b]) = meaning a * meaning b
  nonEmptyCrossJoin (a b : Expr) :
    meaning (function "NonEmptyCrossJoin" [a, b]) = meaning a * meaning b
  star (e : Expr) (es : List Expr) :
    meaning (operation "*" (e :: es)) = es.foldl (fun m e => m * meaning e) (meaning e)

/-! ## Shapes of joins -/

/-- The call of a function on two arguments, or such calls within each other, with the given
expressions as what is joined, in order. -/
inductive JoinedBy (f : String) : List Expr → Expr → Prop where
  | single (e : Expr) : JoinedBy f [e] e
  | call {es fs : List Expr} {a b : Expr} (ha : JoinedBy f es a) (hb : JoinedBy f fs b) :
    JoinedBy f (es ++ fs) (function f [a, b])

theorem joinedBy_nestRight (f : String) (first : Expr) (rest : List Expr) :
    JoinedBy f (first :: rest) (nestRight f first rest) := by
  induction rest generalizing first with
  | nil => exact .single first
  | cons second rest ih => exact .call (.single first) (ih second)

/-- What stands among the operands of a cross join in place of an expression: a bare member is put
in braces, anything else is left as it is. -/
inductive StandsFor : Expr → Expr → Prop where
  | member (name : String) : StandsFor (.member name) (set [.member name])
  | other {e : Expr} (h : ∀ name, e ≠ .member name) : StandsFor e e

theorem standsFor_asOperand (e : Expr) : StandsFor e (asOperand e) := by
  cases e with
  | member name => exact .member name
  | call | identifier | level | hierarchy | literal | raw => exact .other fun _ h => nomatch h

theorem forall₂_asOperand (es : List Expr) : List.Forall₂ StandsFor es (es.map asOperand) := by
  induction es with
  | nil => exact .nil
  | cons e es ih => exact .cons (standsFor_asOperand e) ih

/-! ## Meanings -/

namespace Multiplies

variable {meaning : Expr → M}

theorem joinFunction (hm : Multiplies meaning) (nonEmpty : Bool) (a b : Expr) :
    meaning (function (Expr.joinFunction nonEmpty) [a, b]) = meaning a * meaning b := by
  cases nonEmpty with
  | false => exact hm.crossJoin a b
  | true => exact hm.nonEmptyCrossJoin a b

/-- Calls within calls stand for the product of what they join, however they are bracketed. -/
theorem joinedBy (hm : Multiplies meaning) {nonEmpty : Bool} {es : List Expr} {j : Expr}
    (h : JoinedBy (Expr.joinFunction nonEmpty) es j) :
    product? (es.map meaning) = some (meaning j) := by
  induction h with
  | single e => rfl
  | call _ _ iha ihb => rw [List.map_append, product?_append iha ihb, hm.joinFunction]

theorem operation (hm : Multiplies meaning) {es : List Expr} (hes : es ≠ []) :
    product? (es.map meaning) = some (meaning (Expr.operation "*" es)) := by
  obtain ⟨e, es, rfl⟩ := List.exists_cons_of_ne_nil hes
  rw [hm.star, List.map_cons, product?, List.foldl_map]

end Multiplies

/-! ## Cross joins -/

/-- Three operands and more are joined by the operator where that is asked for, and all others by
calls. -/
theorem crossJoin_eq_some {operands : List Expr} {nonEmpty flatten : Bool} {j : Expr}
    (h : crossJoin operands nonEmpty flatten = some j) :
    if flatten = true ∧ 3 ≤ operands.length then j = operation "*" (operands.map asOperand)
    else JoinedBy (joinFunction nonEmpty) (operands.map asOperand) j := by
  rw [← List.length_map asOperand]
  rw [crossJoin] at h
  generalize operands.map asOperand = es at h
  rcases es with _ | ⟨first, _ | ⟨second, _ | ⟨third, rest⟩⟩⟩
  · cases h
  · cases h
    rw [if_neg (by simp)]
    exact .single _
  · cases h
    rw [if_neg (by simp)]
    exact .call (.single _) (.single _)
  · cases h
    cases flatten with
    | true => simp
    | false => simpa using joinedBy_nestRight _ first (second :: third :: rest)

theorem map_crossJoin {meaning : Expr → M} (hm : Multiplies meaning) (operands : List Expr)
    (nonEmpty flatten : Bool) :
    (crossJoin operands nonEmpty flatten).map meaning =
      product? ((operands.map asOperand).map meaning) := by
  cases hj : crossJoin operands nonEmpty flatten with
  | none =>
    rw [crossJoin_eq_none.1 hj]
    rfl
  | some j =>
    have hshape := crossJoin_eq_some hj
    split at hshape
    · next hflat =>
      have hne : operands.map asOperand ≠ [] := by
        rw [Ne, List.map_eq_nil_iff, ← List.length_eq_zero_iff]
        omega
      rw [hm.operation hne, hshape]
      rfl
    · rw [hm.joinedBy hshape]
      rfl

/-- **What a cross join stands for.** Only without operands there is none. It is built of the
operands in their order, bare members in braces: by the operator if three or more are to be joined
flat, and otherwise by calls of the one function that was asked for. In every meaning it is the
product of all of them, so it does not matter how it is written. -/
theorem crossJoin_product (operands : List Expr) (nonEmpty flatten : Bool) :
    (crossJoin operands nonEmpty flatten = none ↔ operands = []) ∧
    (∀ j, crossJoin operands nonEmpty flatten = some j →
      ∃ es, List.Forall₂ StandsFor operands es ∧
        (if flatten = true ∧ 3 ≤ operands.length then j = operation "*" es
          else JoinedBy (if nonEmpty then "NonEmptyCrossJoin" else "CrossJoin") es j) ∧
        ∀ {M : Type u} [Semigroup M] {meaning : Expr → M}, Multiplies meaning →
          product? (es.map meaning) = some (meaning j)) ∧
    ∀ {M : Type u} [Semigroup M] {meaning : Expr → M}, Multiplies meaning →
      ∀ nonEmpty' flatten', (crossJoin operands nonEmpty' flatten').map meaning =
        (crossJoin operands nonEmpty flatten).map meaning := by
  refine ⟨crossJoin_eq_none, fun j hj => ?_, fun hm nonEmpty' flatten' => ?_⟩
  · refine ⟨operands.map asOperand, forall₂_asOperand operands, crossJoin_eq_some hj, ?_⟩
    intro M _ meaning hm
    rw [← map_crossJoin hm operands nonEmpty flatten, hj]
    rfl
  · rw [map_crossJoin hm, map_crossJoin hm]

/-! ## Sets of tuples -/

/-- A set of tuples of members, in order. -/
structure TupleSet where
  rows : List (List String)
  deriving DecidableEq

/-- Each tuple of the one set with each of the other behind it. -/
instance : Semigroup TupleSet where
  mul s t := ⟨s.rows.flatMap fun x => t.rows.map fun y => x ++ y⟩
  mul_assoc s t r := by
    refine congrArg TupleSet.mk ?_
    show List.flatMap _ (List.flatMap _ s.rows) = List.flatMap _ s.rows
    rw [List.flatMap_assoc]
    refine List.flatMap_congr fun x _ => ?_
    show _ = List.map _ (List.flatMap _ t.rows)
    simp [List.flatMap_map, List.map_flatMap, Function.comp_def]

mutual

/-- The tuples that an expression lists: what stands in braces one behind the other, the arguments
of any other call joined. -/
def tuples : Expr → TupleSet
  | .member name => ⟨[[name]]⟩
  | .call _ .braces items => ⟨(tuplesOf items).flatMap TupleSet.rows⟩
  | .call _ _ args => (product? (tuplesOf args)).getD ⟨[]⟩
  | _ => ⟨[]⟩

def tuplesOf : List Expr → List TupleSet
  | [] => []
  | e :: es => tuples e :: tuplesOf es

end

theorem tuplesOf_eq_map (es : List Expr) : tuplesOf es = es.map tuples := by
  induction es with
  | nil => rfl
  | cons e es ih => rw [tuplesOf, ih, List.map_cons]

theorem multiplies_tuples : Multiplies tuples where
  crossJoin _ _ := rfl
  nonEmptyCrossJoin _ _ := rfl
  star e es := by
    have hstar : tuples (operation "*" (e :: es)) =
        (product? (tuplesOf (e :: es))).getD ⟨[]⟩ := rfl
    rw [hstar, tuplesOf_eq_map, List.map_cons, product?, Option.getD_some, List.foldl_map]

/-- A member, two members in braces, and a join. -/
def salesOperands : List Expr :=
  [.member "2024", set [.member "Peru", .member "Chile"],
    function "CrossJoin" [set [.member "Units"], set [.member "Cars"]]]

theorem crossJoin_product_sales :
    ∃ es j, crossJoin salesOperands true false = some j ∧
      List.Forall₂ StandsFor salesOperands es ∧ JoinedBy "NonEmptyCrossJoin" es j ∧
      product? (es.map tuples) = some (tuples j) ∧
      (crossJoin salesOperands false true).map tuples =
        some ⟨[["2024", "Peru", "Units", "Cars"], ["2024", "Chile", "Units", "Cars"]]⟩ := by
  obtain ⟨-, hsome, hagree⟩ := crossJoin_product.{0} salesOperands true false
  obtain ⟨es, hes, hjoins, hproduct⟩ := hsome _ rfl
  refine ⟨es, _, rfl, hes, hjoins, hproduct multiplies_tuples, ?_⟩
  rw [hagree multiplies_tuples]
  rfl

end CubeQuery.Expr
