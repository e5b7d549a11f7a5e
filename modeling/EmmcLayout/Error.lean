import EmmcLayout.Text.Column

/-!
# Errors

Failures are grouped by what went wrong: bytes that do not follow their format (`FormatError`), a
refused name (`NameError`), a table whose content breaks a rule (`ValidationError`), a layout that
cannot be realised (`LayoutError`), a malformed argument or an edit that does not apply
(`GrammarError`), and a transfer that did not finish (`TransferError`).  `Error` joins those that an
operation on layouts can meet.

Each type says why an operation failed; its function `message` holds the wording.
-/

namespace EmmcLayout

open Text (hex hexWord hexList)

/-- The part of a header that a `FormatError.invalidHeader` is about. -/
inductive HeaderFault
  | structureBlock
  | stringsBlock
  | reservationBlock
  | copySize
  deriving DecidableEq

/-- What is said about a faulty part of a header. -/
def HeaderFault.message : HeaderFault → String
  | .structureBlock => "structure block out of bounds"
  | .stringsBlock => "strings block out of bounds"
  | .reservationBlock => "memory reservation block out of bounds"
  | .copySize => "DTB copy smaller than its trailer"

/-- The bytes are not a well-formed device tree, container or table. -/
inductive FormatError
  /-- The device tree magic does not stand at the start. -/
  | invalidMagic (found : UInt32)
  /-- A read of `len` bytes at `offset` fell outside the bytes. -/
  | truncated (offset len : Nat)
  /-- A text is not closed by a NUL. -/
  | unterminatedText
  | invalidHeader (fault : HeaderFault)
  | invalidToken (offset : Nat) (tag : UInt32)
  /-- The structure block ended inside the node whose content starts at `offset`. -/
  | unterminatedNode (offset : Nat)
  | missingRoot
  | relativePath (path : String)
  | noPartitionsNode
  | missingPropertyName (name : String)
  | propertyLength (name : String) (expected found : Nat)
  | unexpectedProperty (node name : String)
  | nestedNode (node : String)
  | nodeNameTooLong (node : String)
  | tooManyPartitions
  | invalidPartReference (name : String)
  | pnameMismatch (node pname : String)
  | countMismatch (declared parsed : UInt32)
  | phandleConflict (name : String) (phandle linuxPhandle : UInt32)
  | phandleCount (phandle : UInt32) (count : Nat)
  | mixedPhandleSchemes
  | noPhandles
  | phandlesExhausted
  /-- The leading bytes belong to no known container. -/
  | unrecognized (leading : Bytes)
  | unsupportedMultiVersion (version : UInt32)
  | entryOutOfRange (index : Nat)
  | payloadTooLarge (size limit : Nat)
  /-- A gzip stream that does not decode. -/
  | corruptStream
  /-- A range that its owner vouches for does not lie within the bytes it is cut from. -/
  | outOfRange (start stop size : Nat)
  deriving DecidableEq

/-- The most partitions a table or a `/partitions` node holds. -/
def maxPartitions : Nat := 32

namespace FormatError

/-- What is said about bytes that do not follow their format. -/
def message : FormatError → String
  | invalidMagic found => "device tree contains invalid magic number " ++ hexWord found
  | truncated offset len =>
    "truncated input: " ++ toString len ++ " bytes at offset " ++ hex offset ++ " are out of range"
  | unterminatedText => "unexpected end of input while reading a string"
  | invalidHeader fault => "invalid device tree header: " ++ fault.message
  | invalidToken offset tag =>
    "invalid token " ++ hex tag.toNat ++ " at structure offset " ++ hex offset
  | unterminatedNode offset =>
    "structure block ended before the node opened at " ++ hex offset ++ " was closed"
  | missingRoot => "structure block does not start with the root node"
  | relativePath path => "path must be absolute: " ++ path
  | noPartitionsNode => "device tree has no /partitions node"
  | missingPropertyName name =>
    "essential property name '" ++ name ++ "' is not in the string block"
  | propertyLength name expected found =>
    "property '" ++ name ++ "' has length " ++ toString found ++ ", expected " ++ toString expected
  | unexpectedProperty node name =>
    "unexpected property '" ++ name ++ "' in node '" ++ node ++ "'"
  | nestedNode node => "partition node '" ++ node ++ "' contains a sub-node"
  | nodeNameTooLong node => "partition node name '" ++ node ++ "' is too long"
  | tooManyPartitions =>
    "more than " ++ toString maxPartitions ++ " partitions in /partitions"
  | invalidPartReference name => "invalid partition reference property '" ++ name ++ "'"
  | pnameMismatch node pname =>
    "pname '" ++ pname ++ "' does not match node name '" ++ node ++ "'"
  | countMismatch declared parsed =>
    "/partitions declares " ++ toString declared.toNat ++ " partitions but " ++
      toString parsed.toNat ++ " were parsed"
  | phandleConflict name phandle linuxPhandle =>
    "partition '" ++ name ++ "' has phandle " ++ hex phandle.toNat ++ " and linux,phandle " ++
      hex linuxPhandle.toNat
  | phandleCount phandle count =>
    "phandle " ++ hex phandle.toNat ++ " appears " ++ toString count ++ " times"
  | mixedPhandleSchemes =>
    "phandles are mixed between single and paired (linux,phandle) declarations"
  | noPhandles => "device tree declares no phandles"
  | phandlesExhausted => "no free phandle value left"
  | unrecognized leading => "unrecognized DTB format, leading bytes " ++ hexList leading
  | unsupportedMultiVersion version => "unsupported multi-DTB version " ++ toString version.toNat
  | entryOutOfRange index =>
    "multi-DTB entry " ++ toString index ++ " points outside the container"
  | payloadTooLarge size limit =>
    "payload of " ++ toString size ++ " bytes does not fit " ++ toString limit ++ " bytes"
  | corruptStream => "gzip stream is corrupt"
  | outOfRange start stop size =>
    "bytes " ++ toString start ++ " to " ++ toString stop ++ " are not within " ++ toString size

end FormatError

/-- Why a partition name is refused. -/
inductive NameError
  | empty
  /-- A name field without a NUL. -/
  | unterminated
  | tooLong (length : Nat)
  /-- The number of bytes that are neither ASCII letters or digits nor `_` or `-`. -/
  | illegalCharacters (count : Nat)
  deriving DecidableEq

namespace NameError

/-- What is said about a refused name. -/
def message : NameError → String
  | empty => "name is empty"
  | unterminated => "name is not NUL-terminated within 16 bytes"
  | tooLong length => "name is " ++ toString length ++ " bytes long, at most 15 are allowed"
  | illegalCharacters count => "name contains " ++ toString count ++ " illegal characters"

end NameError

/-- A table that could be read breaks one of the rules for tables. -/
inductive ValidationError
  | badPartitionCount (count : Int32)
  | badMagic (found : Bytes)
  | badVersion (found : Bytes)
  | checksumMismatch (recorded computed : UInt32)
  | invalidName (index : Nat) (name : String) (reason : NameError)
  | duplicateName (name : String)
  deriving DecidableEq

namespace ValidationError

/-- What is said about a table that breaks a rule. -/
def message : ValidationError → String
  | badPartitionCount count =>
    "partition count " ++ toString count.toInt ++ " is out of range"
  | badMagic found => "bad EPT magic " ++ hexList found
  | badVersion found => "bad EPT version " ++ hexList found
  | checksumMismatch recorded computed =>
    "EPT checksum " ++ hexWord recorded ++ " does not match computed " ++ hexWord computed
  | invalidName index name reason =>
    "partition " ++ toString index ++ " has an invalid name '" ++ name ++ "': " ++ reason.message
  | duplicateName name => "partition name '" ++ name ++ "' is used more than once"

end ValidationError

/-- A layout cannot be realised on the device. -/
inductive LayoutError
  /-- The table does not start with the partitions that every vendor layout starts with. -/
  | unsupportedLayout (found : List String)
  | overflow (name : String) (offset capacity : UInt64)
  | endsPastCapacity (name : String) (stop capacity : UInt64)
  | offsetBelowCursor (name : String) (offset cursor : UInt64)
  | arithmeticOverflow (name : String)
  | underflow (name : String) (value amount : UInt64)
  | multipleAutofill (first second : String)
  | absoluteAfterAutofill (name autofill : String)
  | noSpace (name : String) (needed free : UInt64)
  /-- A difference or sum that the checks before it keep within 64 bits left them. -/
  | outsideWord (name : String)
  deriving DecidableEq

namespace LayoutError

/-- What is said about a layout that cannot be realised. -/
def message : LayoutError → String
  | unsupportedLayout found =>
    "layout is not pedantic, leading partitions are [" ++ ", ".intercalate found ++ "]"
  | overflow name offset capacity =>
    "partition '" ++ name ++ "' at " ++ hex offset.toNat ++ " is beyond the capacity " ++
      hex capacity.toNat
  | endsPastCapacity name stop capacity =>
    "partition '" ++ name ++ "' ends at " ++ hex stop.toNat ++ ", past the capacity " ++
      hex capacity.toNat
  | offsetBelowCursor name offset cursor =>
    "absolute offset " ++ hex offset.toNat ++ " of '" ++ name ++
      "' is below the used space ending at " ++ hex cursor.toNat
  | arithmeticOverflow name => "arithmetic overflow while placing '" ++ name ++ "'"
  | underflow name value amount =>
    "subtracting " ++ hex amount.toNat ++ " from " ++ hex value.toNat ++ " for '" ++ name ++
      "' would go below zero"
  | multipleAutofill first second =>
    "'" ++ first ++ "' already takes the remaining space, '" ++ second ++ "' cannot as well"
  | absoluteAfterAutofill name autofill =>
    "'" ++ name ++ "' uses an absolute offset after the auto-filled partition '" ++ autofill ++ "'"
  | noSpace name needed free =>
    "no space left for '" ++ name ++ "': " ++ hex needed.toNat ++ " bytes needed, " ++
      hex free.toNat ++ " free"
  | outsideWord name => "a value for '" ++ name ++ "' is outside the 64-bit range"

end LayoutError

/-- The four fields of an argument, which are also the columns of a partition. -/
inductive Field
  | name
  | offset
  | size
  | mask
  deriving DecidableEq

/-- The word a field is called by. -/
def Field.word : Field → String
  | .name => "name"
  | .offset => "offset"
  | .size => "size"
  | .mask => "mask"

/-- An argument, or the edit it asks for, is malformed. -/
inductive GrammarError
  | tooFewSeparators (arg : String)
  | required (field : Field) (arg : String)
  | disallowed (field : Field) (arg : String)
  | relativeNotAllowed (field : Field) (arg : String)
  | absoluteNotAllowed (field : Field) (arg : String)
  | invalidNumber (literal : String)
  | numberOverflow (literal : String)
  | invalidMask (mask : UInt32) (arg : String)
  | invalidName (name : String) (reason : NameError)
  | missingSelector (arg : String)
  | missingOperator (arg : String)
  | missingOperand (operator : Char) (arg : String)
  | trailingInput (arg : String)
  | selectorNotFound (selector : String)
  | placeOutOfRange (target : Int) (count : Nat)
  | nameTaken (name : String)
  | tooManyPartitions (count : Nat)
  | modifierNotAllowed (arg : String)
  deriving DecidableEq

namespace GrammarError

/-- What is said about a malformed argument. -/
def message : GrammarError → String
  | tooFewSeparators arg => "'" ++ arg ++ "' needs three ':' separators (name:offset:size:mask)"
  | required field arg => field.word ++ " is required in '" ++ arg ++ "'"
  | disallowed field arg => field.word ++ " is not allowed in '" ++ arg ++ "'"
  | relativeNotAllowed field arg =>
    "relative " ++ field.word ++ " is not allowed in '" ++ arg ++ "'"
  | absoluteNotAllowed field arg =>
    "absolute " ++ field.word ++ " is not allowed in '" ++ arg ++ "'"
  | invalidNumber literal => "invalid number '" ++ literal ++ "'"
  | numberOverflow literal => "number '" ++ literal ++ "' overflows"
  | invalidMask mask arg => "invalid mask " ++ toString mask.toNat ++ " in '" ++ arg ++ "'"
  | invalidName name reason => "invalid name '" ++ name ++ "': " ++ reason.message
  | missingSelector arg => "modifier '" ++ arg ++ "' has no selector"
  | missingOperator arg => "modifier '" ++ arg ++ "' has no operator"
  | missingOperand operator arg =>
    "operator '" ++ operator.toString ++ "' of '" ++ arg ++ "' needs an operand"
  | trailingInput arg => "unexpected trailing input in '" ++ arg ++ "'"
  | selectorNotFound selector => "no partition matches selector '" ++ selector ++ "'"
  | placeOutOfRange target count =>
    "placing partition at " ++ toString target ++ " is out of range for " ++ toString count ++
      " partitions"
  | nameTaken name => "partition name '" ++ name ++ "' is already taken"
  | tooManyPartitions count => "too many partitions: " ++ toString count
  | modifierNotAllowed arg => "modifiers are not allowed in this mode: '" ++ arg ++ "'"

end GrammarError

/-- Why a transfer ended before its last byte. -/
inductive TransferError
  /-- The source ended after `done` of `total` bytes. -/
  | unexpectedEof (done total : Nat)
  /-- The sink took nothing more after `done` of `total` bytes. -/
  | writeZero (done total : Nat)
  /-- The device failed. -/
  | device (text : String)
  deriving DecidableEq

namespace TransferError

/-- What is said about a transfer that did not finish. -/
def message : TransferError → String
  | unexpectedEof done total =>
    "I/O error: read stopped after " ++ toString done ++ " of " ++ toString total ++ " bytes"
  | writeZero done total =>
    "I/O error: write stopped after " ++ toString done ++ " of " ++ toString total ++ " bytes"
  | device text => "I/O error: " ++ text

end TransferError

/-- Any failure of an operation on layouts. -/
inductive Error
  | format (cause : FormatError)
  | validation (cause : ValidationError)
  | layout (cause : LayoutError)
  | grammar (cause : GrammarError)
  deriving DecidableEq

/-- The wording of the cause, unchanged. -/
def Error.message : Error → String
  | .format cause => cause.message
  | .validation cause => cause.message
  | .layout cause => cause.message
  | .grammar cause => cause.message

end EmmcLayout
