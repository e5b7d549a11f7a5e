import EmmcLayout.Bytes
import EmmcLayout.Error
import EmmcLayout.Journal

/-!
# Transfers

A device takes or gives as many bytes as it likes at a time.  A transfer goes on until it has moved
all its bytes; it calls the device again when a call was interrupted or would have had to wait, and
it ends early when a call moves nothing or fails.

What the device does is a list of events, one for each call.  With no event left, a call moves as
many bytes as it can.
-/

namespace EmmcLayout

/-- Why a call should be made again. -/
inductive Pause
  | interrupted
  | wouldBlock
  deriving DecidableEq

/-- What is said about a pause. -/
def Pause.message : Pause → String
  | .interrupted => "operation interrupted"
  | .wouldBlock => "operation would block"

/-- What the device does on a call. -/
inductive DeviceEvent
  /-- It moves at most so many bytes. -/
  | move (most : Nat)
  | pause (why : Pause)
  | fail (text : String)
  deriving DecidableEq

namespace Transfer

/-! ## Reading -/

/-- A read that ended: the bytes it filled the buffer with, those that are left in the source, and
how it ended. -/
structure Reading where
  filled : Bytes
  left : Bytes
  outcome : Logged TransferError Unit

/-- A read that leaves a note before it goes on. -/
def Reading.after (note : Logged TransferError Unit) (r : Reading) : Reading :=
  { r with outcome := note >>= fun _ => r.outcome }

/-- Reads until there are `total` bytes. -/
def fill (total : Nat) (filled source : Bytes) : List DeviceEvent → Reading
  | [] =>
    let chunk := source.take (total - filled.length)
    let filled := filled ++ chunk
    ⟨filled, source.drop chunk.length,
      if filled.length < total then throw (.unexpectedEof filled.length total) else pure ()⟩
  | event :: events =>
    if total ≤ filled.length then ⟨filled, source, pure ()⟩
    else
      match event with
      | .move most =>
        let chunk := source.take (min most (total - filled.length))
        if chunk.isEmpty then ⟨filled, source, throw (.unexpectedEof filled.length total)⟩
        else fill total (filled ++ chunk) (source.drop chunk.length) events
      | .pause why =>
        (fill total filled source events).after
          (Logged.debug ("retrying read after " ++ why.message))
      | .fail text => ⟨filled, source, throw (.device text)⟩

/-- What a read leaves in a buffer: what it did not fill stays as it was. -/
def Reading.bufferOver (r : Reading) (buffer : Bytes) : Bytes :=
  r.filled ++ buffer.drop r.filled.length

/-- Fills a buffer of `total` bytes from a source. -/
def read (total : Nat) (source : Bytes) (events : List DeviceEvent) : Reading :=
  fill total [] source events

/-! ## Writing -/

/-- A write that ended: the bytes that the sink took, and how it ended. -/
structure Writing where
  written : Bytes
  outcome : Logged TransferError Unit

/-- A write that leaves a note before it goes on. -/
def Writing.after (note : Logged TransferError Unit) (w : Writing) : Writing :=
  { w with outcome := note >>= fun _ => w.outcome }

/-- Writes until nothing is left of `total` bytes. -/
def drain (total : Nat) (written left : Bytes) : List DeviceEvent → Writing
  | [] => ⟨written ++ left, pure ()⟩
  | event :: events =>
    if left.isEmpty then ⟨written, pure ()⟩
    else
      match event with
      | .move most =>
        let chunk := left.take most
        if chunk.isEmpty then ⟨written, throw (.writeZero written.length total)⟩
        else drain total (written ++ chunk) (left.drop chunk.length) events
      | .pause why =>
        (drain total written left events).after
          (Logged.debug ("retrying write after " ++ why.message))
      | .fail text => ⟨written, throw (.device text)⟩

/-- Writes all of `data` to a sink. -/
def write (data : Bytes) (events : List DeviceEvent) : Writing :=
  drain data.length [] data events

/-! ## Files -/

/-- The `len` bytes at an offset of a file. -/
def readAt (file : Bytes) (offset len : Nat) : Logged TransferError Bytes :=
  let reading := read len (file.drop offset) []
  (fun _ => reading.filled) <$> reading.outcome

/-- The file with `data` written at an offset.  A gap before it is filled with zeros; no data leaves
the file as it is. -/
def writeAt (file : Bytes) (offset : Nat) (data : Bytes) : Bytes :=
  if data.isEmpty then file
  else (Bytes.padTo offset file).take offset ++ data ++ file.drop (offset + data.length)

end Transfer

end EmmcLayout
