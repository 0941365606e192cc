import LightningOnion.Lib.Reader

/-! The errors the package returns, with their texts. -/
namespace LightningOnion
open Lib

inductive Error where
  /-- A packet is rejected as an attempted replay. -/
  | errReplayedPacket
  /-- The packet has an unknown version byte. -/
  | errInvalidOnionVersion
  /-- The received MAC is not the computed one. -/
  | errInvalidOnionHMAC
  /-- The onion key is not a point of the curve. -/
  | errInvalidOnionKey
  /-- A lookup in the replay log finds nothing. -/
  | errLogEntryNotFound
  /-- An entry is added to a batch that was already written. -/
  | errAlreadyCommitted
  /-- Declared for a `Start` on a started log; nothing returns it. -/
  | errReplayLogAlreadyStarted
  /-- A method other than `Start` is called on a log that is not started. -/
  | errReplayLogNotStarted
  /-- A failure message of the wrong length. -/
  | invalidErrorLength (expected got : Nat)
  /-- No hop's MAC verifies on a failure message. -/
  | onionFailureNotRetrieved
  | read (e : ReadError)
  deriving DecidableEq, Repr

def Error.text : Error → String
  | errReplayedPacket => "sphinx packet replay attempted"
  | errInvalidOnionVersion => "invalid onion packet version"
  | errInvalidOnionHMAC => "invalid mismatched mac"
  | errInvalidOnionKey => "invalid onion key: pubkey isn't on secp256k1 curve"
  | errLogEntryNotFound => "sphinx packet is not in log"
  | errAlreadyCommitted => "cannot add to batch after committing"
  | errReplayLogAlreadyStarted => "Replay log has already been started"
  | errReplayLogNotStarted => "Replay log has not been started"
  | invalidErrorLength expected got =>
    "invalid error length: expected " ++ toString expected ++ " got " ++ toString got
  | onionFailureNotRetrieved => "unable to retrieve onion failure"
  | read .eof => "EOF"
  | read .unexpectedEOF => "unexpected EOF"

end LightningOnion
