import QueryOptimizer.Proofs.Expression.Bare

/-!
Expressions with other aliases. All aliases of an expression are replaced at once, and nothing else is.
-/
namespace QueryOptimizer
variable {f : Alias → Alias}

namespace Scalar

mutual

/-- The scalar that refers to `f symbol` wherever this one refers to `symbol`. -/
def mapAliases (f : Alias → Alias) : Scalar → Scalar
  | literal id value => literal id value
  | column id quantifier name => column id (f quantifier) name
  | parameter id symbol => parameter id (f symbol)
  | call id function arguments => call id function (mapAliasesEach f arguments)

def mapAliasesEach (f : Alias → Alias) : List Scalar → List Scalar
  | [] => []
  | scalar :: rest => mapAliases f scalar :: mapAliasesEach f rest

end

mutual

theorem bare_mapAliases (f : Alias → Alias) (scalar : Scalar) :
    (scalar.mapAliases f).bare = scalar.bare.mapAliases f := by
  cases scalar with
  | literal | column | parameter => rfl
  | call id function arguments => simp only [mapAliases, bare, bareEach_mapAliasesEach f arguments]

theorem bareEach_mapAliasesEach (f : Alias → Alias) (scalars : List Scalar) :
    bareEach (mapAliasesEach f scalars) = mapAliasesEach f (bareEach scalars) := by
  cases scalars with
  | nil => rfl
  | cons scalar rest =>
    simp only [mapAliasesEach, bareEach, bare_mapAliases f scalar, bareEach_mapAliasesEach f rest]

end

mutual

theorem mapAliases_mapAliases (f g : Alias → Alias) (scalar : Scalar) :
    (scalar.mapAliases f).mapAliases g = scalar.mapAliases (g ∘ f) := by
  cases scalar with
  | literal | column | parameter => rfl
  | call id function arguments => simp only [mapAliases, mapAliasesEach_mapAliasesEach f g arguments]

theorem mapAliasesEach_mapAliasesEach (f g : Alias → Alias) (scalars : List Scalar) :
    mapAliasesEach g (mapAliasesEach f scalars) = mapAliasesEach (g ∘ f) scalars := by
  cases scalars with
  | nil => rfl
  | cons scalar rest =>
    simp only [mapAliasesEach, mapAliases_mapAliases f g scalar, mapAliasesEach_mapAliasesEach f g rest]

end

mutual

/-- If no alias that the scalar refers to is changed, then the scalar is not. -/
theorem mapAliases_eq_self (scalar : Scalar) (kept : ∀ symbol ∈ scalar.correlatedTo, f symbol = symbol) :
    scalar.mapAliases f = scalar := by
  cases scalar with
  | literal => rfl
  | column id quantifier name => rw [mapAliases, kept quantifier (by simp [correlatedTo, AliasSet.of])]
  | parameter id symbol => rw [mapAliases, kept symbol (by simp [correlatedTo, AliasSet.of])]
  | call id function arguments => rw [mapAliases, mapAliasesEach_eq_self arguments kept]

theorem mapAliasesEach_eq_self (scalars : List Scalar)
    (kept : ∀ symbol ∈ correlatedToEach scalars, f symbol = symbol) : mapAliasesEach f scalars = scalars := by
  cases scalars with
  | nil => rfl
  | cons scalar rest =>
    rw [mapAliasesEach,
      mapAliases_eq_self scalar fun symbol member => kept symbol (Std.ExtTreeSet.mem_union_iff.mpr (.inl member)),
      mapAliasesEach_eq_self rest fun symbol member => kept symbol (Std.ExtTreeSet.mem_union_iff.mpr (.inr member))]

end

theorem agreesEach_mapAliasesEach {scalars renamed : List Scalar}
    (each : List.Forall₂ (fun scalar renamed => renamed.agrees (scalar.mapAliases f) = true) scalars renamed) :
    agreesEach renamed (mapAliasesEach f scalars) = true := by
  induction each with
  | nil => rfl
  | cons first _ ih => simp only [mapAliasesEach, agreesEach, first, ih, Bool.and_self]

/-- Replacing the aliases twice comes to replacing them once. -/
theorem agrees_mapAliases_comp {g : Alias → Alias} {scalar once twice : Scalar}
    (first : once.agrees (scalar.mapAliases f) = true) (second : twice.agrees (once.mapAliases g) = true) :
    twice.agrees (scalar.mapAliases (g ∘ f)) = true := by
  rw [agrees_iff_bare_eq] at *
  rw [second, bare_mapAliases, first, ← bare_mapAliases, mapAliases_mapAliases]

end Scalar

namespace Predicate

mutual

/-- The predicate that refers to `f symbol` wherever this one refers to `symbol`. -/
def mapAliases (f : Alias → Alias) : Predicate → Predicate
  | constant id truth => constant id truth
  | and id operands => and id (mapAliasesEach f operands)
  | or id operands => or id (mapAliasesEach f operands)
  | not id operand => not id (mapAliases f operand)
  | compare id comparison left right => compare id comparison (left.mapAliases f) (right.mapAliases f)
  | isNull id operand => isNull id (operand.mapAliases f)

def mapAliasesEach (f : Alias → Alias) : List Predicate → List Predicate
  | [] => []
  | predicate :: rest => mapAliases f predicate :: mapAliasesEach f rest

end

mutual

theorem bare_mapAliases (f : Alias → Alias) (predicate : Predicate) :
    (predicate.mapAliases f).bare = predicate.bare.mapAliases f := by
  cases predicate with
  | constant => rfl
  | compare | isNull => simp only [mapAliases, bare, Scalar.bare_mapAliases]
  | and id operands | or id operands => simp only [mapAliases, bare, bareEach_mapAliasesEach f operands]
  | not id operand => simp only [mapAliases, bare, bare_mapAliases f operand]

theorem bareEach_mapAliasesEach (f : Alias → Alias) (predicates : List Predicate) :
    bareEach (mapAliasesEach f predicates) = mapAliasesEach f (bareEach predicates) := by
  cases predicates with
  | nil => rfl
  | cons predicate rest =>
    simp only [mapAliasesEach, bareEach, bare_mapAliases f predicate, bareEach_mapAliasesEach f rest]

end

mutual

theorem mapAliases_mapAliases (f g : Alias → Alias) (predicate : Predicate) :
    (predicate.mapAliases f).mapAliases g = predicate.mapAliases (g ∘ f) := by
  cases predicate with
  | constant => rfl
  | compare | isNull => simp only [mapAliases, Scalar.mapAliases_mapAliases]
  | and id operands | or id operands => simp only [mapAliases, mapAliasesEach_mapAliasesEach f g operands]
  | not id operand => simp only [mapAliases, mapAliases_mapAliases f g operand]

theorem mapAliasesEach_mapAliasesEach (f g : Alias → Alias) (predicates : List Predicate) :
    mapAliasesEach g (mapAliasesEach f predicates) = mapAliasesEach (g ∘ f) predicates := by
  cases predicates with
  | nil => rfl
  | cons predicate rest =>
    simp only [mapAliasesEach, mapAliases_mapAliases f g predicate, mapAliasesEach_mapAliasesEach f g rest]

end

mutual

/-- If no alias that the predicate refers to is changed, then the predicate is not. -/
theorem mapAliases_eq_self (predicate : Predicate) (kept : ∀ symbol ∈ predicate.correlatedTo, f symbol = symbol) :
    predicate.mapAliases f = predicate := by
  cases predicate with
  | constant => rfl
  | and id operands | or id operands => rw [mapAliases, mapAliasesEach_eq_self operands kept]
  | not id operand => rw [mapAliases, mapAliases_eq_self operand kept]
  | compare id comparison left right =>
    rw [mapAliases,
      left.mapAliases_eq_self fun symbol member => kept symbol (Std.ExtTreeSet.mem_union_iff.mpr (.inl member)),
      right.mapAliases_eq_self fun symbol member => kept symbol (Std.ExtTreeSet.mem_union_iff.mpr (.inr member))]
  | isNull id operand => rw [mapAliases, operand.mapAliases_eq_self kept]

theorem mapAliasesEach_eq_self (predicates : List Predicate)
    (kept : ∀ symbol ∈ correlatedToEach predicates, f symbol = symbol) :
    mapAliasesEach f predicates = predicates := by
  cases predicates with
  | nil => rfl
  | cons predicate rest =>
    rw [mapAliasesEach,
      mapAliases_eq_self predicate fun symbol member => kept symbol (Std.ExtTreeSet.mem_union_iff.mpr (.inl member)),
      mapAliasesEach_eq_self rest fun symbol member => kept symbol (Std.ExtTreeSet.mem_union_iff.mpr (.inr member))]

end

theorem agreesEach_mapAliasesEach {predicates renamed : List Predicate}
    (each : List.Forall₂ (fun predicate renamed => renamed.agrees (predicate.mapAliases f) = true)
      predicates renamed) : agreesEach renamed (mapAliasesEach f predicates) = true := by
  induction each with
  | nil => rfl
  | cons first _ ih => simp only [mapAliasesEach, agreesEach, first, ih, Bool.and_self]

/-- Replacing the aliases twice comes to replacing them once. -/
theorem agrees_mapAliases_comp {g : Alias → Alias} {predicate once twice : Predicate}
    (first : once.agrees (predicate.mapAliases f) = true) (second : twice.agrees (once.mapAliases g) = true) :
    twice.agrees (predicate.mapAliases (g ∘ f)) = true := by
  rw [agrees_iff_bare_eq] at *
  rw [second, bare_mapAliases, first, ← bare_mapAliases, mapAliases_mapAliases]

end Predicate
end QueryOptimizer
