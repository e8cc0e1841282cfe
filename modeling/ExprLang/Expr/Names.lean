import ExprLang.Expr.Basic

/-!
# Names in an expression

Which variables an expression reads and writes, and which of its keywords need
a class around them, each in the order of evaluation: the value of an
assignment comes before the variable it is written to.  Names of properties
and methods are not variables.
-/

namespace ExprLang

/-- The tokens by which an expression refers to things outside it. -/
structure Names where
  /-- Variables that are read. -/
  reads : List Token
  /-- Variables that are written. -/
  writes : List Token
  /-- `this` and `super` keywords. -/
  classRefs : List Token
deriving DecidableEq, Repr

namespace Names

/-- No names at all. -/
def empty : Names :=
  ⟨[], [], []⟩

/-- A variable that is read. -/
def read (name : Token) : Names :=
  ⟨[name], [], []⟩

/-- A variable that is written. -/
def written (name : Token) : Names :=
  ⟨[], [name], []⟩

/-- A keyword that needs a class around it. -/
def classRef (keyword : Token) : Names :=
  ⟨[], [], [keyword]⟩

instance : Append Names :=
  ⟨fun a b =>
    ⟨a.reads ++ b.reads, a.writes ++ b.writes, a.classRefs ++ b.classRefs⟩⟩

@[simp]
theorem reads_append (a b : Names) : (a ++ b).reads = a.reads ++ b.reads :=
  rfl

@[simp]
theorem writes_append (a b : Names) : (a ++ b).writes = a.writes ++ b.writes :=
  rfl

@[simp]
theorem classRefs_append (a b : Names) :
    (a ++ b).classRefs = a.classRefs ++ b.classRefs :=
  rfl

end Names

namespace Expr

mutual

/-- The names in an expression, in the order of evaluation. -/
def names : Expr → Names
  | .binary left _ right => left.names ++ right.names
  | .group inner => inner.names
  | .literal .. => .empty
  | .unary _ operand => operand.names
  | .var name => .read name
  | .assign name value => value.names ++ .written name
  | .logical left _ right => left.names ++ right.names
  | .call callee _ arguments => callee.names ++ namesAll arguments
  | .get object _ => object.names
  | .set object _ value => object.names ++ value.names
  | .this keyword => .classRef keyword
  | .super keyword _ => .classRef keyword

/-- The names in a list of expressions, from left to right. -/
def namesAll : List Expr → Names
  | [] => .empty
  | e :: es => e.names ++ namesAll es

end

end Expr

end ExprLang
