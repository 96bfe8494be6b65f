import QueryOptimizer.Proofs.Expression.ScalarReading

/-!
Reading predicates from s-expressions: what is read is written as the s-expression, and what is written as one
is read from it.
-/
namespace QueryOptimizer

/-- A predicate that agrees with another is written the same way. -/
theorem Predicate.Written.of_agrees {predicate other : Predicate} {shape : Shape}
    (written : predicate.Written shape) (agreed : predicate.agrees other = true) : other.Written shape := by
  induction written generalizing other with
  | constant named =>
    cases other with
    | constant =>
      obtain rfl := of_decide_eq_true agreed
      exact .constant named
    | and | or | not | compare | isNull => cases agreed
  | and parts _ ih =>
    cases other with
    | and =>
      obtain ⟨others, rfl, shapes, each⟩ := exists_parts_of_agrees (fun part member _ => ih part member)
        (agreesEach_iff.mp agreed)
      rw [shapes]
      exact .and others each
    | constant | or | not | compare | isNull => cases agreed
  | or parts _ ih =>
    cases other with
    | or =>
      obtain ⟨others, rfl, shapes, each⟩ := exists_parts_of_agrees (fun part member _ => ih part member)
        (agreesEach_iff.mp agreed)
      rw [shapes]
      exact .or others each
    | constant | and | not | compare | isNull => cases agreed
  | not _ ih =>
    cases other with
    | not => exact .not (ih agreed)
    | constant | and | or | compare | isNull => cases agreed
  | compare named left right =>
    cases other with
    | compare =>
      simp only [agrees, Bool.and_eq_true, decide_eq_true_eq] at agreed
      obtain ⟨⟨rfl, sameLeft⟩, sameRight⟩ := agreed
      exact .compare named (left.of_agrees sameLeft) (right.of_agrees sameRight)
    | constant | and | or | not | isNull => cases agreed
  | isNull operand =>
    cases other with
    | isNull => exact .isNull (operand.of_agrees agreed)
    | constant | and | or | not | compare => cases agreed

/-- The comparisons that symbols stand for. -/
theorem Comparison.ofSymbol?_eq_some_iff {symbol : String} {comparison : Comparison} :
    ofSymbol? symbol = some comparison ↔
      (symbol, comparison) ∈
        [("=", eq), ("<>", notEq), ("<", lt), ("<=", lte), (">", gt), (">=", gte)] := by
  constructor
  · intro found
    obtain rfl : comparison.symbol = symbol := by simpa using List.find?_some found
    cases comparison <;> simp [symbol]
  · intro named
    simp only [List.mem_cons, Prod.mk.injEq, List.not_mem_nil, or_false] at named
    rcases named with ⟨rfl, rfl⟩ | ⟨rfl, rfl⟩ | ⟨rfl, rfl⟩ | ⟨rfl, rfl⟩ | ⟨rfl, rfl⟩ | ⟨rfl, rfl⟩ <;> rfl

namespace Sexp

mutual

/-- Whatever a predicate is read from is a way of writing it. -/
theorem readPredicate_written (sexp : Sexp) (supply : Supply) :
    WhenReturns (readPredicate sexp) supply fun predicate _ => predicate.Written sexp.shape := by
  unfold readPredicate
  split
  · trivial
  · split
    · rename_i same
      subst same
      exact .of_eq rfl (.constant (by simp))
    · split
      · rename_i same
        subst same
        exact .of_eq rfl (.constant (by simp))
      · split
        · rename_i same
          subst same
          exact .of_eq rfl (.constant (by simp))
        · trivial
  · trivial
  · rename_i arguments
    refine .bind ((readPredicates_written arguments supply).imp ?_)
    intro operands _ all
    obtain ⟨parts, rfl, shapes, each⟩ := exists_parts all
    refine .of_eq rfl ?_
    rw [shape, shapeEach, shapes]
    exact .and parts each
  · rename_i arguments
    refine .bind ((readPredicates_written arguments supply).imp ?_)
    intro operands _ all
    obtain ⟨parts, rfl, shapes, each⟩ := exists_parts all
    refine .of_eq rfl ?_
    rw [shape, shapeEach, shapes]
    exact .or parts each
  · split
    · rename_i operand
      refine .bind ((readPredicate_written operand supply).imp ?_)
      intro predicate _ written
      exact .of_eq rfl (.not written)
    · trivial
  · split
    · rename_i operand
      refine .bind ((readScalar_written operand supply).imp ?_)
      intro scalar _ written
      exact .of_eq rfl (.isNull written)
    · trivial
  · split
    · trivial
    · rename_i found
      split
      · rename_i left right
        refine .bind ((readScalar_written left supply).imp ?_)
        intro leftScalar _ writtenLeft
        refine .bind ((readScalar_written right _).imp ?_)
        intro rightScalar _ writtenRight
        exact .of_eq rfl (.compare (Comparison.ofSymbol?_eq_some_iff.mp found) writtenLeft writtenRight)
      · trivial
  · trivial

theorem readPredicates_written (sexps : List Sexp) (supply : Supply) :
    WhenReturns (readPredicates sexps) supply fun predicates _ =>
      List.Forall₂ (fun (predicate : Predicate) sexp => predicate.Written (shape sexp)) predicates sexps := by
  match sexps with
  | [] => exact .pure .nil
  | sexp :: rest =>
    refine .bind ((readPredicate_written sexp supply).imp ?_)
    intro predicate _ first
    refine .bind ((readPredicates_written rest _).imp ?_)
    intro predicates _ others
    exact .pure (.cons first others)

end

theorem readPredicates_eq (sexps : List Sexp) : readPredicates sexps = sexps.mapM readPredicate := by
  induction sexps with
  | nil => rfl
  | cons sexp rest ih => rw [readPredicates, ih, List.mapM_cons]

theorem readsBack_predicate {predicate : Predicate} {shape : Shape} (written : predicate.Written shape) :
    ReadsBack readPredicate Predicate.agrees predicate shape := by
  induction written with
  | constant named =>
    intro sexp same supply
    obtain ⟨position, rfl⟩ := shape_eq_atom_iff.mp same
    simp only [List.mem_cons, Prod.mk.injEq, List.not_mem_nil, or_false] at named
    rcases named with ⟨rfl, rfl⟩ | ⟨rfl, rfl⟩ | ⟨rfl, rfl⟩
    · exact .of_eq rfl rfl
    · exact .of_eq rfl rfl
    · exact .of_eq rfl rfl
  | and parts _ ih | or parts _ ih =>
    intro sexp same supply
    obtain ⟨position, place, arguments, rfl, shapes⟩ := shape_eq_call_iff.mp same
    rw [readPredicate, readPredicates_eq]
    refine .bind ((readsBack_mapM ih shapes supply).imp ?_)
    intro found _ all
    exact .of_eq rfl (Predicate.agreesEach_iff.mpr all)
  | not _ ih =>
    intro sexp same supply
    obtain ⟨position, place, arguments, rfl, shapes⟩ := shape_eq_call_iff.mp same
    obtain ⟨operand, rfl, isOperand⟩ := List.map_eq_singleton_iff.mp shapes
    rw [readPredicate]
    refine .bind ((ih operand isOperand supply).imp ?_)
    intro found _ agreed
    exact .of_eq rfl agreed
  | @compare _ symbol comparison left right _ _ named writtenLeft writtenRight =>
    intro sexp same supply
    obtain ⟨position, place, arguments, rfl, shapes⟩ := shape_eq_call_iff.mp same
    obtain ⟨first, rest, rfl, isLeft, shapes⟩ := List.map_eq_cons_iff.mp shapes
    obtain ⟨second, rfl, isRight⟩ := List.map_eq_singleton_iff.mp shapes
    have read : readPredicate (.list position [.atom place symbol, first, second]) =
        readScalar first >>= fun left => readScalar second >>= fun right =>
          Predicate.newCompare comparison left right := by
      simp only [List.mem_cons, Prod.mk.injEq, List.not_mem_nil, or_false] at named
      rcases named with ⟨rfl, rfl⟩ | ⟨rfl, rfl⟩ | ⟨rfl, rfl⟩ | ⟨rfl, rfl⟩ | ⟨rfl, rfl⟩ | ⟨rfl, rfl⟩ <;> rfl
    rw [read]
    refine .bind ((readsBack_scalar writtenLeft first isLeft supply).imp ?_)
    intro foundLeft middle agreedLeft
    refine .bind ((readsBack_scalar writtenRight second isRight middle).imp ?_)
    intro foundRight _ agreedRight
    exact .of_eq rfl (by simp [Predicate.agrees, agreedLeft, agreedRight])
  | isNull written =>
    intro sexp same supply
    obtain ⟨position, place, arguments, rfl, shapes⟩ := shape_eq_call_iff.mp same
    obtain ⟨operand, rfl, isOperand⟩ := List.map_eq_singleton_iff.mp shapes
    rw [readPredicate]
    refine .bind ((readsBack_scalar written operand isOperand supply).imp ?_)
    intro found _ agreed
    exact .of_eq rfl agreed

end Sexp
end QueryOptimizer
