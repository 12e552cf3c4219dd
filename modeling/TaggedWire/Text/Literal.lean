import TaggedWire.Bytes

/-! Binary contents as text: a quoted literal where they are UTF-8, hexadecimal digits where they are not.
Quotes, backslashes and the ASCII control characters are escaped, so a literal stays on one line. -/
namespace TaggedWire
namespace Text.Literal

def isControl (c : Char) : Bool := c.toNat < 0x20 || c.toNat == 0x7F

def escape (c : Char) : List Char :=
  if c = '"' then ['\\', '"']
  else if c = '\\' then ['\\', '\\']
  else if c = '\n' then ['\\', 'n']
  else if c = '\r' then ['\\', 'r']
  else if c = '\t' then ['\\', 't']
  else if isControl c then '\\' :: 'x' :: Bytes.hexPair (UInt8.ofNat c.toNat)
  else [c]

def quoted (cs : List Char) : List Char := '"' :: (cs.flatMap escape ++ ['"'])

def ofBytes (bs : Bytes) : List Char :=
  match bs.text? with
  | some s => quoted s.toList
  | none => '0' :: 'x' :: bs.hex

end Text.Literal
end TaggedWire
