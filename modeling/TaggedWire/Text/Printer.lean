import TaggedWire.Text.Render

/-! Printing in one pass, for where the text is not to be built from the texts of its parts: whatever has been printed is
kept, and what comes next is put behind it. The level that lines are indented to goes up inside a block and down at its
end. -/
namespace TaggedWire
namespace Text

structure Printer where
  output : List Char
  indent : Nat

namespace Printer

def put (p : Printer) (text : List Char) : Printer := { p with output := p.output ++ text }

def pad (p : Printer) : Printer := p.put (padding p.indent)

def deeper (p : Printer) : Printer := { p with indent := p.indent + 1 }

def back (p : Printer) : Printer := { p with indent := p.indent - 1 }

/-- The braces of a block, around what prints its entries. -/
def braces (p : Printer) (empty : Bool) (entries : Printer → Printer) : Printer :=
  if empty then (p.put ['{']).put ['}'] else (entries ((p.put ['{']).put ['\n']).deeper).back.pad.put ['}']

mutual
def print (p : Printer) : Value → Printer
  | .bool b => p.put (if b then "true" else "false").toList
  | .byte n => p.put (suffixed n.toInt "i8")
  | .double bits => p.put (Double.text bits ++ "f64".toList)
  | .i16 n => p.put (suffixed n.toInt "i16")
  | .i32 n => p.put (suffixed n.toInt "i32")
  | .i64 n => p.put (suffixed n.toInt "i64")
  | .binary bs => p.put (Literal.ofBytes bs)
  | .struct fs => (p.put "struct ".toList).braces fs.isEmpty fun p => p.printFields fs
  | .map k c xs => (p.put (header "map" [k, c])).braces xs.isEmpty fun p => p.printItems xs
  | .set c vs => (p.put (header "set" [c])).braces vs.isEmpty fun p => p.printAll vs
  | .list c vs => (p.put (header "list" [c])).braces vs.isEmpty fun p => p.printAll vs

def printFields (p : Printer) : List Field → Printer
  | [] => p
  | (k, v) :: fs => (((p.pad.put (wholeNumber k.id.toInt ++ [':', ' '])).print v).put [',', '\n']).printFields fs

def printItems (p : Printer) : List (Value × Value) → Printer
  | [] => p
  | (k, v) :: xs => ((((p.pad.print k).put [':', ' ']).print v).put [',', '\n']).printItems xs

def printAll (p : Printer) : List Value → Printer
  | [] => p
  | v :: vs => ((p.pad.print v).put [',', '\n']).printAll vs
end

end Printer
end Text
end TaggedWire
