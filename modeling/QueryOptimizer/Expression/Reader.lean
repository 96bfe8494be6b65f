import QueryOptimizer.Expression.Sexp
import QueryOptimizer.Predicate.Basic
import QueryOptimizer.Text.Numeral

/-!
Reading literals, scalar expressions and predicates from their textual syntax, which is the one they
are printed in: `(and (= (param p) 5) (not (< (col q a) (+ 1 (col q b)))))`.
-/
namespace QueryOptimizer

/-- Computations that read: each node of the result gets a new identity. -/
abbrev ReadM := EStateM ParseError Supply

namespace Sexp

/-- The constant that an atom stands for. -/
def atomLiteral? (text : String) : Option Literal :=
  if text = "null" then some .null
  else if text = "true" then some (.bool true)
  else if text = "false" then some (.bool false)
  else (Text.integer? text.toList).map Literal.int

def literal? : Sexp → Option Literal
  | atom _ text => atomLiteral? text
  | quoted _ value => some (.string value)
  | list _ _ => none

/-- The atom's text; fails on anything else. -/
def identifier : Sexp → ReadM String
  | atom _ text => return text
  | sexp => throw (sexp.error "expected an identifier")

/-- The number that stands for the position of a field. -/
def fieldPosition (sexp : Sexp) : ReadM Nat := do
  match Text.position? (← sexp.identifier).toList with
  | some position => return position
  | none => throw (sexp.error "expected a field position")

def arityProblem (name : String) (expected found : Nat) : String :=
  name ++ " takes " ++ toString expected ++ " arguments, found " ++ toString found

/-- The functions that are written with nothing but their arguments. -/
def plainFunctions : List ScalarFunction :=
  [.neg, .abs, .add, .sub, .mul, .record]

def plainFunction? (name : String) : Option ScalarFunction :=
  plainFunctions.find? fun function => function.name = name

mutual

def readScalar : Sexp → ReadM Scalar
  | quoted _ value => Scalar.newLiteral (.string value)
  | atom position text =>
    match atomLiteral? text with
    | some value => Scalar.newLiteral value
    | none => throw ⟨"expected a scalar expression", position⟩
  | list position [] => throw ⟨"expected a scalar expression, found ()", position⟩
  | list position (atom _ "col" :: arguments) =>
    match arguments with
    | [quantifier, column] => do
      let symbol ← quantifier.identifier
      Scalar.newColumn ⟨symbol⟩ (← column.identifier)
    | _ => throw ⟨arityProblem "col" 2 arguments.length, position⟩
  | list position (atom _ "param" :: arguments) =>
    match arguments with
    | [parameter] => do Scalar.newParameter ⟨← parameter.identifier⟩
    | _ => throw ⟨arityProblem "param" 1 arguments.length, position⟩
  | list position (atom _ "field" :: arguments) =>
    match arguments with
    | [component, record] => do
      let component ← component.fieldPosition
      Scalar.newCall (.field component) [← readScalar record]
    | _ => throw ⟨arityProblem "field" 2 arguments.length, position⟩
  | list position (atom _ name :: arguments) =>
    match plainFunction? name with
    | none => throw ⟨"unknown function " ++ name, position⟩
    | some function =>
      match function.arity?.filter (· ≠ arguments.length) with
      | some expected => throw ⟨arityProblem name expected arguments.length, position⟩
      | none => do Scalar.newCall function (← readScalars arguments)
  | list _ (head :: _) => throw (head.error "expected an operator name")

def readScalars : List Sexp → ReadM (List Scalar)
  | [] => return []
  | sexp :: rest => do
    let scalar ← readScalar sexp
    return scalar :: (← readScalars rest)

end

mutual

def readPredicate : Sexp → ReadM Predicate
  | quoted position _ => throw ⟨"expected a predicate", position⟩
  | atom position text =>
    if text = "true" then Predicate.newConstant .holds
    else if text = "false" then Predicate.newConstant .fails
    else if text = "unknown" then Predicate.newConstant .unknown
    else throw ⟨"expected a predicate", position⟩
  | list position [] => throw ⟨"expected a predicate, found ()", position⟩
  | list _ (atom _ "and" :: arguments) => do Predicate.newAnd (← readPredicates arguments)
  | list _ (atom _ "or" :: arguments) => do Predicate.newOr (← readPredicates arguments)
  | list position (atom _ "not" :: arguments) =>
    match arguments with
    | [operand] => do Predicate.newNot (← readPredicate operand)
    | _ => throw ⟨arityProblem "not" 1 arguments.length, position⟩
  | list position (atom _ "is-null" :: arguments) =>
    match arguments with
    | [operand] => do Predicate.newIsNull (← readScalar operand)
    | _ => throw ⟨arityProblem "is-null" 1 arguments.length, position⟩
  | list position (atom _ name :: arguments) =>
    match Comparison.ofSymbol? name with
    | none => throw ⟨"unknown predicate " ++ name, position⟩
    | some comparison =>
      match arguments with
      | [left, right] => do
        let left ← readScalar left
        Predicate.newCompare comparison left (← readScalar right)
      | _ => throw ⟨arityProblem name 2 arguments.length, position⟩
  | list _ (head :: _) => throw (head.error "expected an operator name")

def readPredicates : List Sexp → ReadM (List Predicate)
  | [] => return []
  | sexp :: rest => do
    let predicate ← readPredicate sexp
    return predicate :: (← readPredicates rest)

end

end Sexp

/-- Reads a text as an s-expression, and that with `read`. -/
def readText (read : Sexp → ReadM α) (text : String) : ReadM α :=
  match Sexp.parse text with
  | .ok sexp => read sexp
  | .error error => throw error

/-- Reads a single constant. -/
def Literal.parse (text : String) : Except ParseError Literal := do
  let sexp ← Sexp.parse text
  match sexp.literal? with
  | some value => return value
  | none => throw (sexp.error "expected a literal")

def Scalar.parse : String → ReadM Scalar :=
  readText Sexp.readScalar

def Predicate.parse : String → ReadM Predicate :=
  readText Sexp.readPredicate

end QueryOptimizer
