import TaggedWire.Codec.Protocol
import TaggedWire.Text.Render

/-! The command: it reads one encoded struct and prints its readable form. -/
namespace TaggedWire

/-- The readable form of the struct at the front of the bytes. -/
def structToText (bs : Bytes) : Except DecodeError String :=
  (Protocol.decode {} .struct bs).map Value.toText

namespace Command

inductive Source where
  | standardInput
  | file (path : String)
deriving DecidableEq

/-- The first argument names a file; without one, or with a single dash, standard input is read. -/
def source : List String → Source
  | [] | "-" :: _ => .standardInput
  | path :: _ => .file path

/-- What a source holds, given standard input and the files that can be read. -/
def Source.contents (input : Bytes) (files : String → Option Bytes) : Source → Option Bytes
  | .standardInput => some input
  | .file path => files path

structure Report where
  exitCode : UInt32
  output : String
deriving DecidableEq

/-- A failure prints nothing. `contents` is `none` where the source could not be read. -/
def report (contents : Option Bytes) : Report :=
  match contents.map structToText with
  | some (.ok text) => ⟨0, text ++ "\n"⟩
  | _ => ⟨1, ""⟩

end Command
end TaggedWire
