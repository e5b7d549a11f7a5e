import EmmcLayout.DeviceTree.Token

/-!
# Listing tokens

Two ways to list the tokens of a structure block up to the one that ends the tree.  A stream gives
them one by one, and once it has met the end it gives no more.  A listing has them all.
-/

namespace EmmcLayout.DeviceTree

/-- A cursor that stops for good at the end of the tree. -/
structure TokenStream where
  cursor : Cursor
  finished : Bool := false

/-- Gives the next token, or `none` at the end of the tree. -/
def TokenStream.next (s : TokenStream) : Except FormatError (Option Token) × TokenStream :=
  if s.finished then (.ok none, s)
  else
    match s.cursor.next with
    | (.error e, c) => (.error e, { s with cursor := c })
    | (.ok .endTree, c) => (.ok none, ⟨c, true⟩)
    | (.ok t, c) => (.ok (some t), { s with cursor := c })

/-- The tokens before the end of the tree, the offset at which reading them stopped, and the failure
that came before the end if one did. -/
structure Listing where
  tokens : List Token
  position : Nat
  failure : Option FormatError
  deriving DecidableEq

/-- The listing of a run of tokens. -/
def TokenRun.listing (r : TokenRun) : Listing :=
  let isInner (s : Step) : Bool := s.token ≠ .endTree
  let tokens := (r.steps.takeWhile isInner).map Step.token
  match r.steps.dropWhile isInner with
  | last :: _ => ⟨tokens, last.stop, none⟩
  | [] => ⟨tokens, r.position, some r.failure⟩

end EmmcLayout.DeviceTree
