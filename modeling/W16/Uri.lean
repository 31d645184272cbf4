import Mathlib.Data.List.Basic
import W16.CodeUnits
import W16.Octets

/-!
# URI encoding and decoding

The functions of `uri.js` on the code units of a string. The arrays they build have no elements
but those they write, and the prototypes of arrays have none.
-/
namespace W16.Uris

set_option linter.dupNamespace false

/-- `URIError`, or the code units of the string that is returned. -/
inductive Outcome where
  | uriError
  | value (result : List Nat)
  deriving DecidableEq

def hexCharCodeArray : List Nat :=
  [48, 49, 50, 51, 52, 53, 54, 55, 56, 57, 65, 66, 67, 68, 69, 70]

/-- A result holds the elements below `index`. -/
def uriAddEncodedOctetToBuffer (octet : Nat) (result : List Nat) : List Nat :=
  result ++ [37, hexCharCodeArray.getD (octet >>> 4) 0, hexCharCodeArray.getD (octet &&& 0x0F) 0]

/-- An octet that is not there is as false as an octet of zero. -/
def uriEncodeOctets (octets : List Nat) (result : List Nat) : List Nat :=
  let result := uriAddEncodedOctetToBuffer (octets.getD 0 0) result
  let result :=
    if octets.getD 1 0 ≠ 0 then uriAddEncodedOctetToBuffer (octets.getD 1 0) result else result
  let result :=
    if octets.getD 2 0 ≠ 0 then uriAddEncodedOctetToBuffer (octets.getD 2 0) result else result
  if octets.getD 3 0 ≠ 0 then uriAddEncodedOctetToBuffer (octets.getD 3 0) result else result

def uriEncodeSingle (cc : Nat) (result : List Nat) : List Nat :=
  let x := (cc >>> 12) &&& 0xF
  let y := (cc >>> 6) &&& 63
  let z := cc &&& 63
  let octets :=
    if cc ≤ 0x007F then [cc]
    else if cc ≤ 0x07FF then [y + 192, z + 128]
    else [x + 224, y + 128, z + 128]
  uriEncodeOctets octets result

def uriEncodePair (cc1 cc2 : Nat) (result : List Nat) : List Nat :=
  let u := ((cc1 >>> 6) &&& 0xF) + 1
  let w := (cc1 >>> 2) &&& 0xF
  let x := cc1 &&& 3
  let y := (cc2 >>> 6) &&& 0xF
  let z := cc2 &&& 63
  uriEncodeOctets [(u >>> 2) + 240, (((u &&& 3) <<< 4) ||| w) + 128, ((x <<< 4) ||| y) + 128, z + 128] result

/-- The loop of `Encode`, at most `fuel` turns. -/
def encodeLoop (uri : List Nat) (unescape : Nat → Bool) : Nat → Nat → List Nat → Option Outcome
  | 0, _, _ => none
  | fuel + 1, k, result =>
    match uri[k]? with
    | none => some (.value result)
    | some cc1 =>
      if unescape cc1 then encodeLoop uri unescape fuel (k + 1) (result ++ [cc1])
      else if cc1 ≥ 0xDC00 && cc1 ≤ 0xDFFF then some .uriError
      else if cc1 < 0xD800 || cc1 > 0xDBFF then
        encodeLoop uri unescape fuel (k + 1) (uriEncodeSingle cc1 result)
      else
        match uri[k + 1]? with
        | none => some .uriError
        | some cc2 =>
          if cc2 < 0xDC00 || cc2 > 0xDFFF then some .uriError
          else encodeLoop uri unescape fuel (k + 2) (uriEncodePair cc1 cc2 result)

def encode (uri : List Nat) (unescape : Nat → Bool) : Option Outcome :=
  encodeLoop uri unescape (uri.length + 1) 0 []

/-- None stands for -1. -/
def hexValueOf (code : Nat) : Option Nat :=
  if code ≥ 48 && code ≤ 57 then some (code - 48)
  else if code ≥ 65 && code ≤ 70 then some (code - 55)
  else if code ≥ 97 && code ≤ 102 then some (code - 87)
  else none

/-- None where `URIError` is thrown, which a code outside of the string leads to as well. -/
def uriHexCharsToCharCode (highChar lowChar : Option Nat) : Option Nat := do
  let highCode ← hexValueOf (← highChar)
  let lowCode ← hexValueOf (← lowChar)
  return (highCode <<< 4) ||| lowCode

def isTail (o : Nat) : Bool := !(o < 0x80 || o > 0xbf)

/-- `value` of `URIDecodeOctets`, or none where `URIError` is thrown. -/
def octetsValue (o0 o1 o2 o3 : Nat) : Option Nat :=
  if o0 < 0x80 then some o0
  else if o0 < 0xc2 then none
  else if o0 < 0xe0 then
    if !isTail o1 then none else
    let value := ((o0 &&& 0x1f) <<< 6) + (o1 &&& 0x3f)
    if value < 0x80 || value > 0x7ff then none else some value
  else if o0 < 0xf0 then
    if !isTail o1 then none
    else if !isTail o2 then none else
    let value := ((o0 &&& 0x0f) <<< 12) + ((o1 &&& 0x3f) <<< 6) + (o2 &&& 0x3f)
    if value < 0x800 || value > 0xffff then none else some value
  else if o0 < 0xf8 then
    if !isTail o1 then none
    else if !isTail o2 then none
    else if !isTail o3 then none else
    let value :=
      ((o0 &&& 0x07) <<< 18) + ((o1 &&& 0x3f) <<< 12) + ((o2 &&& 0x3f) <<< 6) + (o3 &&& 0x3f)
    if value < 0x10000 || value > 0x10ffff then none else some value
  else none

/-- The elements that are added to the result, or none where `URIError` is thrown. -/
def uriDecodeOctets (octets : List Nat) : Option (List Nat) := do
  let value ← octetsValue (octets.getD 0 0) (octets.getD 1 0) (octets.getD 2 0) (octets.getD 3 0)
  if value < 0x10000 then some [value]
  else some [(value >>> 10) + 0xd7c0, (value &&& 0x3ff) + 0xdc00]

/-- `while (((cc << ++n) & 0x80) != 0) ;`, at most `fuel` turns. -/
def countLoop (cc : Nat) : Nat → Nat → Nat
  | 0, n => n
  | fuel + 1, n => if (cc <<< (n + 1)) &&& 0x80 ≠ 0 then countLoop cc fuel (n + 1) else n + 1

/-- The octets of a group behind its first one: `n` of them from behind `k` on. -/
def octetsLoop (uri : List Nat) : Nat → Nat → Option (List Nat)
  | 0, _ => some []
  | n + 1, k =>
    if uri[k + 1]? ≠ some 37 then none
    else do
      let octet ← uriHexCharsToCharCode uri[k + 2]? uri[k + 3]?
      let octets ← octetsLoop uri n (k + 3)
      return octet :: octets

/-- One turn of the loop of `Decode` at the character `ch`: what it writes and the next `k`, or none
where `URIError` is thrown. -/
def decodeStep (uri : List Nat) (reserved : Nat → Bool) (k ch : Nat) : Option (List Nat × Nat) :=
  if ch = 37 then
    if k + 2 ≥ uri.length then none
    else do
      let cc ← uriHexCharsToCharCode uri[k + 1]? uri[k + 2]?
      let k := k + 2
      if cc >>> 7 ≠ 0 then
        let n := countLoop cc 8 0
        if n = 1 || n > 4 then none
        else if k + 3 * (n - 1) ≥ uri.length then none
        else do
          let octets ← octetsLoop uri (n - 1) k
          let units ← uriDecodeOctets (cc :: octets)
          return (units, k + 3 * (n - 1) + 1)
      else if reserved cc then return ([37, uri.getD (k - 1) 0, uri.getD k 0], k + 1)
      else return ([cc], k + 1)
  else some ([ch], k + 1)

/-- The loop of `Decode`, at most `fuel` turns. -/
def decodeLoop (uri : List Nat) (reserved : Nat → Bool) : Nat → Nat → List Nat → Option Outcome
  | 0, _, _ => none
  | fuel + 1, k, result =>
    match uri[k]? with
    | none => some (.value result)
    | some ch =>
      match decodeStep uri reserved k ch with
      | none => some .uriError
      | some (units, k) => decodeLoop uri reserved fuel k (result ++ units)

def decode (uri : List Nat) (reserved : Nat → Bool) : Option Outcome :=
  decodeLoop uri reserved (uri.length + 1) 0 []

/-! ## The functions of the global object -/

def reservedPredicate (cc : Nat) : Bool :=
  (35 ≤ cc && cc ≤ 36) || cc = 38 || (43 ≤ cc && cc ≤ 44) || cc = 47 || (58 ≤ cc && cc ≤ 59) ||
    cc = 61 || (63 ≤ cc && cc ≤ 64)

def isAlphaNumeric (cc : Nat) : Bool :=
  (97 ≤ cc && cc ≤ 122) || (65 ≤ cc && cc ≤ 90) || (48 ≤ cc && cc ≤ 57)

def unescapePredicate (cc : Nat) : Bool :=
  isAlphaNumeric cc || cc = 33 || (35 ≤ cc && cc ≤ 36) || (38 ≤ cc && cc ≤ 47) ||
    (58 ≤ cc && cc ≤ 59) || cc = 61 || (63 ≤ cc && cc ≤ 64) || cc = 95 || cc = 126

def unescapeComponentPredicate (cc : Nat) : Bool :=
  isAlphaNumeric cc || cc = 33 || (39 ≤ cc && cc ≤ 42) || (45 ≤ cc && cc ≤ 46) || cc = 95 || cc = 126

/-- The code units of a string. -/
def codes (string : List UInt16) : List Nat := string.map UInt16.toNat

def uriDecode (uri : List UInt16) : Option Outcome := decode (codes uri) reservedPredicate

def uriDecodeComponent (component : List UInt16) : Option Outcome :=
  decode (codes component) fun _ => false

def uriEncode (uri : List UInt16) : Option Outcome := encode (codes uri) unescapePredicate

def uriEncodeComponent (component : List UInt16) : Option Outcome :=
  encode (codes component) unescapeComponentPredicate

end W16.Uris
