/-!
# Steps into a value

One step goes from a container to a part of it, by key or by index.  A path is a
sequence of steps, and its text is the steps' texts in order.
-/

namespace Conform

/-- One step into a container. -/
inductive Accessor where
  | key (name : String)
  | index (i : Nat)
  deriving DecidableEq, Repr

/-- The text of a step: `.name` or `[3]`. -/
def Accessor.token : Accessor → String
  | .key name => "." ++ name
  | .index i => "[" ++ toString i ++ "]"

end Conform
