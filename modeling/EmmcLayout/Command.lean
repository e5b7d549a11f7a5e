import EmmcLayout.Layout.Build
import EmmcLayout.Layout.Records

/-!
# Commands

The operations on layouts as a user asks for them: the arguments are read by the rules of a mode,
and then acted on.  An argument that is refused ends a command before anything is done.
-/

namespace EmmcLayout.Command

/-- A table of the vendor's partitions and those that the arguments describe. -/
def createTable (args : List String) (capacity : UInt64) (options : LayoutOptions) :
    Outcome Table := do
  let definers ← Grammar.parseDefiners .createTable args
  Layout.createTable definers capacity options

/-- A table of the partitions that the arguments describe. -/
def cloneTable (mode : Mode) (args : List String) : Outcome Table := do
  let definers ← Grammar.parseDefiners mode args
  Layout.cloneTable definers

/-- A table changed as the arguments say. -/
def editTable (mode : Mode) (base : Table) (args : List String) (capacity : UInt64)
    (options : LayoutOptions) : Outcome Table := do
  let editors ← Grammar.parseEditors mode args
  Layout.editTable base editors capacity options

/-- The records that the arguments describe. -/
def cloneRecords (mode : Mode) (args : List String) : Outcome (List Record) := do
  let definers ← Grammar.parseDefiners mode args
  Layout.cloneRecords definers

/-- Records changed as the arguments say. -/
def editRecords (mode : Mode) (base : List Record) (args : List String)
    (options : LayoutOptions) : Outcome (List Record) := do
  let editors ← Grammar.parseEditors mode args
  Layout.editRecords base editors options

end EmmcLayout.Command
