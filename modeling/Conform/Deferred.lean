/-!
# Deferred parts

Parts of a definition may be left to the surrounding program: a definition that
is produced when it is needed, a list of fields, a default, a transform.  They
are referred to by number, and a host says what the number stands for.  So a
definition may refer to itself, and function values may refer to definitions,
without either being infinite.

Two deferred parts belong to the library itself: the grammar of definitions uses
them.

## Main definitions

* `Thunk`, `Transform`: deferred definitions and transforms.
* `Callable`: what a function value does.
-/

namespace Conform

/-- The number under which a host knows a deferred part. -/
abbrev Code := Nat

/-- A definition that is produced each time it is needed. -/
inductive Thunk where
  /-- The definition that all definitions conform to. -/
  | grammar
  /-- A definition that the host produces. -/
  | host (code : Code)
  deriving DecidableEq, Repr

/-- A step that replaces a value or refuses it. -/
inductive Transform where
  /-- Refuses arrays without items. -/
  | nonEmpty
  /-- A step that the host takes. -/
  | host (code : Code)
  deriving DecidableEq, Repr

/-- What a function value does when it is called. -/
inductive Callable where
  /-- A function of the host. -/
  | host (code : Code)
  /-- Gives the lowered definition of a thunk. -/
  | force (thunk : Thunk)
  /-- Gives an object of lowered fields. -/
  | fields (code : Code)
  /-- Gives a default. -/
  | produce (code : Code)
  /-- Applies a transform to the first argument. -/
  | apply (transform : Transform)
  deriving DecidableEq, Repr

end Conform
