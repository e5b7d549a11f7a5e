/-!
# Journalled computations

An operation leaves notes on its way: warnings about what it accepted, statements of what it did,
and details for whoever looks for a fault.  The notes are part of its answer, also when it fails.
`Logged ε α` is a computation with both: its `result` is an ordinary `Except ε α`, and `result_bind`
says that sequencing journalled computations sequences their results, so a statement about results
never has to look at the notes.
-/

namespace EmmcLayout

/-- How much a note matters, from the most severe on. -/
inductive Level
  | warn
  | info
  | debug
  deriving DecidableEq, Repr

/-- The rank of a level; a level admits every note of its rank or a smaller one. -/
def Level.rank : Level → Nat
  | .warn => 0
  | .info => 1
  | .debug => 2

/-- The word for a level. -/
def Level.name : Level → String
  | .warn => "warn"
  | .info => "info"
  | .debug => "debug"

/-- The level that a word stands for. -/
def Level.ofName? (name : String) : Option Level :=
  [Level.warn, .info, .debug].find? (·.name = name)

/-- One note. -/
structure Note where
  level : Level
  text : String
  deriving DecidableEq, Repr

/-- A computation that may fail with `ε`, with the notes it left until it finished or failed. -/
structure Logged (ε α : Type) where
  notes : List Note
  result : Except ε α

namespace Logged

variable {ε ε' α β : Type}

/-- A computation without notes. -/
def ofExcept (x : Except ε α) : Logged ε α :=
  ⟨[], x⟩

/-- Leaves one note. -/
def note (level : Level) (text : String) : Logged ε Unit :=
  ⟨[⟨level, text⟩], .ok ()⟩

/-- Leaves a note about something accepted that the user should hear of. -/
def warn (text : String) : Logged ε Unit := note .warn text

/-- Leaves a note about something done. -/
def info (text : String) : Logged ε Unit := note .info text

/-- Leaves a note about a detail. -/
def debug (text : String) : Logged ε Unit := note .debug text

/-- Runs `x`, then `f` on its value; a failure of `x` ends the computation. -/
def andThen (x : Logged ε α) (f : α → Logged ε β) : Logged ε β :=
  match x.result with
  | .ok a => ⟨x.notes ++ (f a).notes, (f a).result⟩
  | .error e => ⟨x.notes, .error e⟩

instance : Monad (Logged ε) where
  pure a := ⟨[], .ok a⟩
  bind := andThen

instance : MonadExceptOf ε (Logged ε) where
  throw e := ⟨[], .error e⟩
  tryCatch x handle :=
    match x.result with
    | .ok a => ⟨x.notes, .ok a⟩
    | .error e => ⟨x.notes ++ (handle e).notes, (handle e).result⟩

instance : MonadLift (Except ε) (Logged ε) where
  monadLift := ofExcept

/-- The same computation with its failure restated. -/
def mapError (f : ε → ε') (x : Logged ε α) : Logged ε' α :=
  ⟨x.notes, x.result.mapError f⟩

@[simp]
theorem result_pure (a : α) : (pure a : Logged ε α).result = .ok a := rfl

@[simp]
theorem result_throw (e : ε) : (throw e : Logged ε α).result = .error e := rfl

@[simp]
theorem result_ofExcept (x : Except ε α) : (ofExcept x).result = x := rfl

@[simp]
theorem result_note (level : Level) (text : String) :
    (note level text : Logged ε Unit).result = .ok () := rfl

@[simp]
theorem result_warn (text : String) : (warn text : Logged ε Unit).result = .ok () := rfl

@[simp]
theorem result_info (text : String) : (info text : Logged ε Unit).result = .ok () := rfl

@[simp]
theorem result_debug (text : String) : (debug text : Logged ε Unit).result = .ok () := rfl

@[simp]
theorem result_mapError (f : ε → ε') (x : Logged ε α) :
    (x.mapError f).result = x.result.mapError f := rfl

@[simp]
theorem result_bind (x : Logged ε α) (f : α → Logged ε β) :
    (x >>= f).result = x.result >>= fun a => (f a).result := by
  rcases x with ⟨notes, _ | a⟩ <;> rfl

@[simp]
theorem result_monadLift (x : Except ε α) : (monadLift x : Logged ε α).result = x := rfl

@[ext]
theorem ext {x y : Logged ε α} (hn : x.notes = y.notes) (hr : x.result = y.result) : x = y := by
  cases x; cases y; simp_all

theorem bind_assoc_notes {γ : Type} (x : Logged ε α) (f : α → Logged ε β) (g : β → Logged ε γ) :
    x >>= f >>= g = x >>= fun a => f a >>= g := by
  rcases x with ⟨notes, e | a⟩
  · rfl
  · change andThen (andThen ⟨notes, .ok a⟩ f) g = andThen ⟨notes, .ok a⟩ fun a => andThen (f a) g
    rcases h : f a with ⟨notes', e | b⟩ <;> simp [andThen, h]

theorem id_map_notes (x : Logged ε α) : id <$> x = x := by
  rcases x with ⟨notes, e | a⟩
  · rfl
  · ext1
    · exact List.append_nil notes
    · rfl

instance : LawfulMonad (Logged ε) :=
  LawfulMonad.mk' (Logged ε) id_map_notes (fun _ _ => rfl) bind_assoc_notes

end Logged

end EmmcLayout
