import QueryOptimizer.Expression.Reader
import QueryOptimizer.Proofs.Computation
import QueryOptimizer.Proofs.Expression.Bare
import QueryOptimizer.Proofs.Expression.Nesting
import QueryOptimizer.Proofs.Expression.Numeral

/-!
Reading constants and scalars from s-expressions: what is read is written as the s-expression, and what is
written as one is read from it.
-/
namespace QueryOptimizer

namespace Sexp

theorem shape_eq_atom_iff {sexp : Sexp} {word : String} :
    sexp.shape = .atom word ↔ ∃ position, sexp = .atom position word := by
  cases sexp <;> simp [shape]

theorem shape_eq_list_iff {sexp : Sexp} {shapes : List Shape} :
    sexp.shape = .list shapes ↔ ∃ position items, sexp = .list position items ∧ items.map shape = shapes := by
  cases sexp <;> simp [shape, shapeEach_eq]

/-- What has the form of a name over arguments. -/
theorem shape_eq_call_iff {sexp : Sexp} {name : String} {shapes : List Shape} :
    sexp.shape = .list (.atom name :: shapes) ↔
      ∃ position place arguments, sexp = .list position (.atom place name :: arguments) ∧
        arguments.map shape = shapes := by
  constructor
  · intro same
    obtain ⟨position, items, rfl, shapes⟩ := shape_eq_list_iff.mp same
    obtain ⟨head, arguments, rfl, isName, others⟩ := List.map_eq_cons_iff.mp shapes
    obtain ⟨place, rfl⟩ := shape_eq_atom_iff.mp isName
    exact ⟨position, place, arguments, rfl, others⟩
  · intro call
    obtain ⟨position, place, arguments, rfl, rfl⟩ := call
    exact shape_eq_list_iff.mpr ⟨position, _, rfl, rfl⟩

theorem written_atom_iff {word : String} {value : Literal} :
    value.Written (.atom word) ↔ atomLiteral? word = some value := by
  constructor
  · intro written
    cases written with
    | null | true | false => rfl
    | int integer =>
      have read := Text.integer?_eq_some_iff.mpr integer
      have notNull : word ≠ "null" := by
        intro same
        subst same
        cases read
      have notTrue : word ≠ "true" := by
        intro same
        subst same
        cases read
      have notFalse : word ≠ "false" := by
        intro same
        subst same
        cases read
      rw [atomLiteral?, if_neg notNull, if_neg notTrue, if_neg notFalse, read]
      rfl
  · intro read
    unfold atomLiteral? at read
    split at read
    · rename_i same
      cases read
      exact same ▸ .null
    · split at read
      · rename_i same
        cases read
        exact same ▸ .true
      · split at read
        · rename_i same
          cases read
          exact same ▸ .false
        · obtain ⟨integer, found, rfl⟩ := Option.map_eq_some_iff.mp read
          exact .int (Text.integer?_eq_some_iff.mp found)

theorem literal?_eq_some_iff {sexp : Sexp} {value : Literal} :
    sexp.literal? = some value ↔ value.Written sexp.shape := by
  cases sexp with
  | atom position word => exact written_atom_iff.symm
  | quoted position string =>
    constructor
    · intro read
      cases read
      exact .string
    · intro written
      cases written
      rfl
  | list position items =>
    constructor
    · intro read
      cases read
    · intro written
      cases written

/-- An identifier is read from an atom. -/
theorem identifier_shape (sexp : Sexp) (supply : Supply) :
    WhenReturns sexp.identifier supply fun word _ => sexp.shape = .atom word := by
  cases sexp with
  | atom position word => exact .pure rfl
  | quoted | list => trivial

theorem fieldPosition_written (sexp : Sexp) (supply : Supply) :
    WhenReturns sexp.fieldPosition supply fun position _ =>
      ∃ word, sexp.shape = .atom word ∧ WritesPosition word position := by
  refine .bind ((identifier_shape sexp supply).imp ?_)
  intro word _ isWord
  split
  · rename_i position found
    exact .pure ⟨word, isWord, Text.position?_eq_some_iff.mp found⟩
  · trivial

/-- Values that are written as s-expressions one by one are so as pairs. -/
theorem exists_parts {ν : Type} {written : ν → Shape → Prop} {values : List ν} {sexps : List Sexp}
    (all : List.Forall₂ (fun value sexp => written value (shape sexp)) values sexps) :
    ∃ parts : List (ν × Shape), values = parts.map Prod.fst ∧ shapeEach sexps = parts.map Prod.snd ∧
      ∀ part ∈ parts, written part.1 part.2 := by
  induction all with
  | nil => exact ⟨[], rfl, rfl, fun _ absent => nomatch absent⟩
  | @cons value sexp _ _ first _ ih =>
    obtain ⟨parts, rfl, shapes, rest⟩ := ih
    exact ⟨(value, sexp.shape) :: parts, rfl, congrArg (sexp.shape :: ·) shapes,
      List.forall_mem_cons.mpr ⟨first, rest⟩⟩

/-- A function is written by its name over as many arguments as it takes. -/
theorem written_call {name : String} {function : ScalarFunction} {arguments : List Scalar} {sexps : List Sexp}
    (plain : plainFunction? name = some function)
    (fits : function.arity?.filter (· ≠ sexps.length) = none)
    (all : List.Forall₂ (fun (scalar : Scalar) sexp => scalar.Written (shape sexp)) arguments sexps)
    (id : NodeId) :
    (Scalar.call id function arguments).Written (.list (.atom name :: shapeEach sexps)) := by
  have named : function.name = name := by simpa using List.find?_some plain
  have among := List.mem_of_find?_eq_some plain
  have enough (expected : Nat) (takes : function.arity? = some expected) : sexps.length = expected := by
    have same := Option.filter_eq_none_iff.mp fits expected takes
    simp only [ne_eq, decide_not, Bool.not_eq_true', decide_eq_false_iff_not, not_not] at same
    exact same.symm
  subst named
  cases function with
  | neg | abs =>
    obtain ⟨sexp, rfl⟩ := List.length_eq_one_iff.mp (enough 1 rfl)
    obtain ⟨operand, rest, first, none, rfl⟩ := List.forall₂_cons_right_iff.mp all
    obtain rfl := List.forall₂_nil_right_iff.mp none
    exact .unary (by simp [ScalarFunction.name]) first
  | add | sub | mul =>
    obtain ⟨left, right, rfl⟩ := List.length_eq_two.mp (enough 2 rfl)
    obtain ⟨one, rest, first, more, rfl⟩ := List.forall₂_cons_right_iff.mp all
    obtain ⟨other, rest, second, none, rfl⟩ := List.forall₂_cons_right_iff.mp more
    obtain rfl := List.forall₂_nil_right_iff.mp none
    exact .binary (by simp [ScalarFunction.name]) first second
  | record =>
    obtain ⟨parts, rfl, shapes, each⟩ := exists_parts all
    rw [shapes]
    exact .record parts each
  | field => simp [plainFunctions] at among

mutual

/-- Whatever a scalar is read from is a way of writing it. -/
theorem readScalar_written (sexp : Sexp) (supply : Supply) :
    WhenReturns (readScalar sexp) supply fun scalar _ => scalar.Written sexp.shape := by
  unfold readScalar
  split
  · exact .of_eq rfl (.literal .string)
  · split
    · rename_i found
      exact .of_eq rfl (.literal (written_atom_iff.mpr found))
    · trivial
  · trivial
  · split
    · rename_i quantifier column
      refine .bind ((identifier_shape quantifier supply).imp ?_)
      intro symbol _ isSymbol
      refine .bind ((identifier_shape column _).imp ?_)
      intro name _ isName
      refine .of_eq rfl ?_
      rw [shape, shapeEach, shapeEach, shapeEach, isSymbol, isName]
      exact .column
    · trivial
  · split
    · rename_i parameter
      refine .bind ((identifier_shape parameter supply).imp ?_)
      intro symbol _ isSymbol
      refine .of_eq rfl ?_
      rw [shape, shapeEach, shapeEach, isSymbol]
      exact .parameter
    · trivial
  · split
    · rename_i component record
      refine .bind ((fieldPosition_written component supply).imp ?_)
      intro position _ outcome
      obtain ⟨word, isWord, writes⟩ := outcome
      refine .bind ((readScalar_written record _).imp ?_)
      intro scalar _ written
      refine .of_eq rfl ?_
      rw [shape, shapeEach, shapeEach, shapeEach, isWord]
      exact .field writes written
    · trivial
  · rename_i _ _ arguments _ _ _
    split
    · trivial
    · rename_i function plain
      split
      · trivial
      · rename_i fits
        refine .bind ((readScalars_written arguments supply).imp ?_)
        intro scalars _ all
        exact .of_eq rfl (written_call plain fits all _)
  · trivial

theorem readScalars_written (sexps : List Sexp) (supply : Supply) :
    WhenReturns (readScalars sexps) supply fun scalars _ =>
      List.Forall₂ (fun (scalar : Scalar) sexp => scalar.Written (shape sexp)) scalars sexps := by
  match sexps with
  | [] => exact .pure .nil
  | sexp :: rest =>
    refine .bind ((readScalar_written sexp supply).imp ?_)
    intro scalar _ first
    refine .bind ((readScalars_written rest _).imp ?_)
    intro scalars _ others
    exact .pure (.cons first others)

end

/-- Whatever has the given shape is read as a value that agrees with the given one. -/
def ReadsBack {ν : Type} (read : Sexp → ReadM ν) (agrees : ν → ν → Bool) (value : ν) (shape : Shape) : Prop :=
  ∀ sexp : Sexp, sexp.shape = shape → ∀ supply,
    Returns (read sexp) supply fun found _ => agrees found value = true

theorem readsBack_mapM {ν : Type} {read : Sexp → ReadM ν} {agrees : ν → ν → Bool} {parts : List (ν × Shape)}
    (each : ∀ part ∈ parts, ReadsBack read agrees part.1 part.2) {sexps : List Sexp}
    (shapes : sexps.map shape = parts.map Prod.snd) (supply : Supply) :
    Returns (sexps.mapM read) supply fun found _ =>
      List.Forall₂ (fun found value => agrees found value = true) found (parts.map Prod.fst) := by
  induction parts generalizing sexps supply with
  | nil =>
    obtain rfl := List.map_eq_nil_iff.mp shapes
    exact .pure .nil
  | cons part rest ih =>
    obtain ⟨sexp, others, rfl, same, more⟩ := List.map_eq_cons_iff.mp shapes
    rw [List.mapM_cons]
    refine .bind ((each part (List.mem_cons_self ..) sexp same supply).imp ?_)
    intro first middle agreed
    refine .bind ((ih (fun other member => each other (List.mem_cons_of_mem _ member)) more middle).imp ?_)
    intro found _ all
    exact .pure (.cons agreed all)

theorem readScalars_eq (sexps : List Sexp) : readScalars sexps = sexps.mapM readScalar := by
  induction sexps with
  | nil => rfl
  | cons sexp rest ih => rw [readScalars, ih, List.mapM_cons]

end Sexp

/-- Values that agree with written ones are written the same way. -/
theorem exists_parts_of_agrees {ν : Type} {written : ν → Shape → Prop} {agrees : ν → ν → Prop}
    {parts : List (ν × Shape)}
    (each : ∀ part ∈ parts, ∀ other, agrees part.1 other → written other part.2) {others : List ν}
    (all : List.Forall₂ agrees (parts.map Prod.fst) others) :
    ∃ same : List (ν × Shape), others = same.map Prod.fst ∧ parts.map Prod.snd = same.map Prod.snd ∧
      ∀ part ∈ same, written part.1 part.2 := by
  induction parts generalizing others with
  | nil =>
    obtain rfl := List.forall₂_nil_left_iff.mp all
    exact ⟨[], rfl, rfl, fun _ absent => nomatch absent⟩
  | cons part rest ih =>
    obtain ⟨other, more, agreed, later, rfl⟩ := List.forall₂_cons_left_iff.mp all
    obtain ⟨same, rfl, shapes, others⟩ :=
      ih (fun next member => each next (List.mem_cons_of_mem _ member)) later
    exact ⟨(other, part.2) :: same, rfl, congrArg (part.2 :: ·) shapes,
      List.forall_mem_cons.mpr ⟨each part (List.mem_cons_self ..) other agreed, others⟩⟩

namespace Scalar

/-- What agrees with a call is a call of the same function with arguments that agree. -/
theorem exists_call_of_agrees {id : NodeId} {function : ScalarFunction} {arguments : List Scalar} {other : Scalar}
    (agreed : (call id function arguments).agrees other = true) :
    ∃ otherId others, other = call otherId function others ∧
      List.Forall₂ (fun one other => agrees one other = true) arguments others := by
  cases other with
  | call otherId otherFunction others =>
    simp only [agrees, Bool.and_eq_true, decide_eq_true_eq] at agreed
    obtain ⟨rfl, all⟩ := agreed
    exact ⟨otherId, others, rfl, agreesEach_iff.mp all⟩
  | literal | column | parameter => cases agreed

/-- A scalar that agrees with another is written the same way. -/
theorem Written.of_agrees {scalar other : Scalar} {shape : Shape} (written : scalar.Written shape)
    (agreed : scalar.agrees other = true) : other.Written shape := by
  induction written generalizing other with
  | literal written =>
    cases other with
    | literal =>
      obtain rfl := of_decide_eq_true agreed
      exact .literal written
    | column | parameter | call => cases agreed
  | column =>
    cases other with
    | column =>
      simp only [agrees, Bool.and_eq_true, decide_eq_true_eq] at agreed
      obtain ⟨rfl, rfl⟩ := agreed
      exact .column
    | literal | parameter | call => cases agreed
  | parameter =>
    cases other with
    | parameter =>
      obtain rfl := of_decide_eq_true agreed
      exact .parameter
    | literal | column | call => cases agreed
  | field writes _ ih =>
    obtain ⟨_, _, rfl, all⟩ := exists_call_of_agrees agreed
    obtain ⟨record, rest, same, none, rfl⟩ := List.forall₂_cons_left_iff.mp all
    obtain rfl := List.forall₂_nil_left_iff.mp none
    exact .field writes (ih same)
  | unary named _ ih =>
    obtain ⟨_, _, rfl, all⟩ := exists_call_of_agrees agreed
    obtain ⟨operand, rest, same, none, rfl⟩ := List.forall₂_cons_left_iff.mp all
    obtain rfl := List.forall₂_nil_left_iff.mp none
    exact .unary named (ih same)
  | binary named _ _ ihLeft ihRight =>
    obtain ⟨_, _, rfl, all⟩ := exists_call_of_agrees agreed
    obtain ⟨left, rest, sameLeft, more, rfl⟩ := List.forall₂_cons_left_iff.mp all
    obtain ⟨right, rest, sameRight, none, rfl⟩ := List.forall₂_cons_left_iff.mp more
    obtain rfl := List.forall₂_nil_left_iff.mp none
    exact .binary named (ihLeft sameLeft) (ihRight sameRight)
  | record parts _ ih =>
    obtain ⟨_, _, rfl, all⟩ := exists_call_of_agrees agreed
    obtain ⟨others, rfl, shapes, each⟩ := exists_parts_of_agrees (fun part member _ => ih part member) all
    rw [shapes]
    exact .record others each

end Scalar

namespace Sexp

theorem readScalar_of_literal? {sexp : Sexp} {value : Literal} (found : sexp.literal? = some value) :
    readScalar sexp = Scalar.newLiteral value := by
  cases sexp with
  | atom position word =>
    rw [readScalar, show atomLiteral? word = some value from found]
  | quoted position string =>
    cases found
    rw [readScalar]
  | list => cases found

theorem readsBack_call {name : String} {function : ScalarFunction} {parts : List (Scalar × Shape)}
    (plain : plainFunction? name = some function)
    (fits : function.arity?.filter (· ≠ parts.length) = none)
    (each : ∀ part ∈ parts, ReadsBack readScalar Scalar.agrees part.1 part.2) (id : NodeId) :
    ReadsBack readScalar Scalar.agrees (.call id function (parts.map Prod.fst))
      (.list (.atom name :: parts.map Prod.snd)) := by
  intro sexp same supply
  obtain ⟨position, place, arguments, rfl, others⟩ := shape_eq_call_iff.mp same
  have size : parts.length = arguments.length := by simpa using (congrArg List.length others).symm
  have read : readScalar (.list position (.atom place name :: arguments)) =
      readScalars arguments >>= fun scalars => Scalar.newCall function scalars := by
    -- The names that are read in a way of their own are not names of plain functions.
    have notColumn : name ≠ "col" := by
      intro special
      subst special
      cases plain
    have notParameter : name ≠ "param" := by
      intro special
      subst special
      cases plain
    have notField : name ≠ "field" := by
      intro special
      subst special
      cases plain
    rw [readScalar, plain]
    · dsimp only
      rw [← size, fits]
    · exact notColumn
    · exact notParameter
    · exact notField
  rw [read, readScalars_eq]
  refine .bind ((readsBack_mapM each others supply).imp ?_)
  intro found _ all
  refine .of_eq rfl ?_
  rw [Scalar.agrees, Scalar.agreesEach_iff.mpr all]
  simp

theorem readsBack_scalar {scalar : Scalar} {shape : Shape} (written : scalar.Written shape) :
    ReadsBack readScalar Scalar.agrees scalar shape := by
  induction written with
  | literal written =>
    intro sexp same supply
    subst same
    rw [readScalar_of_literal? (literal?_eq_some_iff.mpr written)]
    exact .of_eq rfl (by simp [Scalar.agrees])
  | column =>
    intro sexp same supply
    obtain ⟨position, place, arguments, rfl, shapes⟩ := shape_eq_call_iff.mp same
    obtain ⟨quantifier, rest, rfl, isQuantifier, shapes⟩ := List.map_eq_cons_iff.mp shapes
    obtain ⟨column, rfl, isColumn⟩ := List.map_eq_singleton_iff.mp shapes
    obtain ⟨_, rfl⟩ := shape_eq_atom_iff.mp isQuantifier
    obtain ⟨_, rfl⟩ := shape_eq_atom_iff.mp isColumn
    exact .of_eq rfl (by simp [Scalar.agrees])
  | parameter =>
    intro sexp same supply
    obtain ⟨position, place, arguments, rfl, shapes⟩ := shape_eq_call_iff.mp same
    obtain ⟨parameter, rfl, isParameter⟩ := List.map_eq_singleton_iff.mp shapes
    obtain ⟨_, rfl⟩ := shape_eq_atom_iff.mp isParameter
    exact .of_eq rfl (by simp [Scalar.agrees])
  | @field _ index word record shape writes _ ih =>
    intro sexp same supply
    obtain ⟨position, place, arguments, rfl, shapes⟩ := shape_eq_call_iff.mp same
    obtain ⟨component, rest, rfl, isWord, shapes⟩ := List.map_eq_cons_iff.mp shapes
    obtain ⟨inner, rfl, isRecord⟩ := List.map_eq_singleton_iff.mp shapes
    obtain ⟨wordPlace, rfl⟩ := shape_eq_atom_iff.mp isWord
    have found : (atom wordPlace word).fieldPosition supply = .ok index supply := by
      simp only [fieldPosition, identifier, pure_bind, Text.position?_eq_some_iff.mpr writes]
      rfl
    rw [readScalar]
    refine .bind (.of_eq found (.bind ((ih inner isRecord supply).imp ?_)))
    intro found _ agreed
    exact .of_eq rfl (by simp [Scalar.agrees, Scalar.agreesEach, agreed])
  | @unary id name function operand shape named _ ih =>
    have each : ∀ part ∈ [(operand, shape)], ReadsBack readScalar Scalar.agrees part.1 part.2 := by simpa using ih
    simp only [List.mem_cons, Prod.mk.injEq, List.not_mem_nil, or_false] at named
    rcases named with ⟨rfl, rfl⟩ | ⟨rfl, rfl⟩
    · exact readsBack_call rfl rfl each id
    · exact readsBack_call rfl rfl each id
  | @binary id name function left right leftShape rightShape named _ _ leftBack rightBack =>
    have each : ∀ part ∈ [(left, leftShape), (right, rightShape)],
        ReadsBack readScalar Scalar.agrees part.1 part.2 := by simpa using ⟨leftBack, rightBack⟩
    simp only [List.mem_cons, Prod.mk.injEq, List.not_mem_nil, or_false] at named
    rcases named with ⟨rfl, rfl⟩ | ⟨rfl, rfl⟩ | ⟨rfl, rfl⟩
    · exact readsBack_call rfl rfl each id
    · exact readsBack_call rfl rfl each id
    · exact readsBack_call rfl rfl each id
  | record parts _ ih => exact readsBack_call rfl rfl ih _

end Sexp
end QueryOptimizer
