import BoundNames.Json.Basic
import BoundNames.Decimal

/-!
# Writing compact JSON

The text of a value without gaps, its fields in their order. A string escapes the quote, the
backslash and the control characters below U+0020 and leaves every other character as it is.
-/

set_option autoImplicit false
set_option relaxedAutoImplicit false

namespace BoundNames.Json

/-- Numbers from `10 ^ -5` up to `10 ^ 16` have a point among their digits and always a fraction;
beyond that range the exponent has its sign. -/
def floatLayout : Decimal.Layout :=
  ⟨-5, 15, ".0", "e", "+"⟩

/-- The text of a binary64 value: the fewest digits that read back. JSON has no word for a value
that is not finite. -/
def writeFloat (x : Float) : String :=
  if x.isNaN || x.isInf then "null"
  else
    let b := Binary64.ofBits x.toBits
    let sign := if x.toBits >>> 63 = 1 then "-" else ""
    if b.m = 0 then sign ++ "0" ++ floatLayout.wholeTail
    else sign ++ floatLayout.write b.shortest

/-- The text of a number. -/
def Number.write : Number → String
  | .integer i => toString i
  | .float x => writeFloat x

/-- A hexadecimal digit in lower case. -/
def hexDigit (n : Nat) : Char :=
  if n < 10 then Char.ofNat ('0'.toNat + n) else Char.ofNat ('a'.toNat + (n - 10))

/-- A character as it stands between quotes. -/
def escape (c : Char) : List Char :=
  if c = '"' then ['\\', '"']
  else if c = '\\' then ['\\', '\\']
  else if c = '\x08' then ['\\', 'b']
  else if c = '\t' then ['\\', 't']
  else if c = '\n' then ['\\', 'n']
  else if c = '\x0c' then ['\\', 'f']
  else if c = '\r' then ['\\', 'r']
  else if c.toNat < 0x20 then
    ['\\', 'u', '0', '0', hexDigit (c.toNat / 16), hexDigit (c.toNat % 16)]
  else [c]

/-- A text between quotes. -/
def quote (s : String) : String :=
  String.ofList ('"' :: s.toList.flatMap escape ++ ['"'])

mutual

/-- The compact text of a value. -/
def write : Json → String
  | null => "null"
  | bool b => if b then "true" else "false"
  | number x => x.write
  | string s => quote s
  | array items => "[" ++ writeItems "" items ++ "]"
  | object fields => "\x7b" ++ writeFields "" fields ++ "\x7d"

/-- The items of an array, the first after `lead` and every other after a comma. -/
def writeItems (lead : String) : List Json → String
  | [] => ""
  | v :: rest => lead ++ write v ++ writeItems "," rest

/-- The fields of an object, the first after `lead` and every other after a comma. -/
def writeFields (lead : String) : List (String × Json) → String
  | [] => ""
  | (k, v) :: rest => lead ++ quote k ++ ":" ++ write v ++ writeFields "," rest

end

end BoundNames.Json
