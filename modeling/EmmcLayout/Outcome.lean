import EmmcLayout.Error
import EmmcLayout.Journal

/-!
# Outcomes

The answer of an operation on layouts: a journalled computation that may fail for any of the causes
that `Error` joins.  A step that fails for one of them only is lifted without further ado.
-/

namespace EmmcLayout

/-- An operation on layouts. -/
abbrev Outcome (α : Type) := Logged Error α

/-- The kinds of failure that `Error` joins. -/
class Cause (ε : Type) where
  toError : ε → Error

instance : Cause FormatError := ⟨.format⟩
instance : Cause ValidationError := ⟨.validation⟩
instance : Cause LayoutError := ⟨.layout⟩
instance : Cause GrammarError := ⟨.grammar⟩

namespace Outcome

variable {ε α : Type}

/-- A journalled step that fails for one kind of cause. -/
def ofLogged [Cause ε] (x : Logged ε α) : Outcome α :=
  x.mapError Cause.toError

/-- A step that fails for one kind of cause. -/
def ofExcept [Cause ε] (x : Except ε α) : Outcome α :=
  ofLogged (Logged.ofExcept x)

/-- Fails for a cause. -/
def fail [Cause ε] (cause : ε) : Outcome α :=
  throw (Cause.toError cause)

instance : MonadLift (Logged FormatError) (Logged Error) := ⟨ofLogged⟩
instance : MonadLift (Logged ValidationError) (Logged Error) := ⟨ofLogged⟩
instance : MonadLift (Logged LayoutError) (Logged Error) := ⟨ofLogged⟩
instance : MonadLift (Logged GrammarError) (Logged Error) := ⟨ofLogged⟩

@[simp]
theorem result_ofLogged [Cause ε] (x : Logged ε α) :
    (ofLogged x).result = x.result.mapError Cause.toError := rfl

@[simp]
theorem result_ofExcept [Cause ε] (x : Except ε α) :
    (ofExcept x).result = x.mapError Cause.toError := rfl

@[simp]
theorem result_fail [Cause ε] (cause : ε) :
    (fail cause : Outcome α).result = .error (Cause.toError cause) := rfl

end Outcome

end EmmcLayout
