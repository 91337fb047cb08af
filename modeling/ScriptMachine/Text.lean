namespace ScriptMachine

abbrev Text := List UInt8

namespace Text

def ofString (s : String) : Text := s.toUTF8.data.toList

instance : Coe String Text := ⟨ofString⟩

def concat (parts : List Text) : Text := parts.flatten

/-- The part before the first zero byte, at which messages and paths end. -/
def untilZero (t : Text) : Text := t.takeWhile (· ≠ 0)

/-- The parts with `separator` between neighbours. -/
def join (separator : Text) : List Text → Text
  | [] => []
  | [part] => part
  | part :: rest => part ++ separator ++ join separator rest

def digit (c : Char) : UInt8 := c.toNat.toUInt8

def decimal (n : Nat) : Text := (Nat.toDigits 10 n).map digit

def integer (i : Int) : Text :=
  if i < 0 then 0x2d :: decimal i.natAbs else decimal i.natAbs

def padLeft (width : Nat) (fill : UInt8) (t : Text) : Text :=
  List.replicate (width - t.length) fill ++ t

def padRight (width : Nat) (fill : UInt8) (t : Text) : Text :=
  t ++ List.replicate (width - t.length) fill

def lowerByte (b : UInt8) : UInt8 := if 0x41 ≤ b ∧ b ≤ 0x5a then b + 0x20 else b

def lower (t : Text) : Text := t.map lowerByte

/-- Equality up to the case of ASCII letters. -/
def sameIgnoringCase (s t : Text) : Bool := lower s == lower t

/-- Lexicographic order of the bytes; a proper beginning comes first. -/
def order : Text → Text → Ordering
  | [], [] => .eq
  | [], _ :: _ => .lt
  | _ :: _, [] => .gt
  | a :: s, b :: t => (compare a b).then (order s t)

/-- How a byte is written between double quotes. -/
def escapeByte (b : UInt8) : Text :=
  if b = 0x22 then "\\\""
  else if b = 0x5c then "\\\\"
  else if b = 0x0a then "\\n"
  else if b = 0x09 then "\\t"
  else if b = 0x0d then "\\r"
  else [b]

/-- The text between double quotes, with quote, backslash, newline, tab and return escaped. -/
def quoted (t : Text) : Text := concat ["\"", t.flatMap escapeByte, "\""]

end Text
end ScriptMachine
