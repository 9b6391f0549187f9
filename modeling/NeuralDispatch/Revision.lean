/-!
# Interface revisions

Drivers speak one of three revisions of the interface.  A newer revision can do all that an older
one can, so revisions are ordered by age.
-/

namespace NeuralDispatch

/-- A revision of the driver interface (`HalVersion`). -/
inductive Revision where
  | v1_0
  | v1_1
  | v1_2
  deriving DecidableEq, Inhabited, Repr

namespace Revision

/-- Every revision, newest first (`NEWEST_FIRST`). -/
def newestFirst : List Revision := [.v1_2, .v1_1, .v1_0]

/-- The place of a revision in the order of their appearance. -/
def age : Revision → Nat
  | v1_0 => 0
  | v1_1 => 1
  | v1_2 => 2

instance : LE Revision := ⟨fun a b => a.age ≤ b.age⟩

instance (a b : Revision) : Decidable (a ≤ b) := inferInstanceAs (Decidable (a.age ≤ b.age))

/-- The newer of two revisions. -/
def newer (a b : Revision) : Revision := if a ≤ b then b else a

/-- The feature level that a revision stands for. -/
def featureLevel : Revision → Int
  | v1_0 => 27
  | v1_1 => 28
  | v1_2 => 29

def text : Revision → String
  | v1_0 => "1.0"
  | v1_1 => "1.1"
  | v1_2 => "1.2"

end Revision

end NeuralDispatch
