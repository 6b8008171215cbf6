import CloudBackup.ByteStrings

/-!
# JSON values and their text

The program builds values and leaves their text to the JSON library, which
the model takes as a pair of functions. The members of an object are listed
in the order of their keys, as the library keeps them.
-/

set_option autoImplicit false

namespace CloudBackup.JsonCodec
open CloudBackup.ByteStrings

inductive Json where
  | null
  | int (n : ℤ)
  | string (s : Bytes)
  | array (items : List Json)
  | object (members : List (Bytes × Json))

/-- `JsonUtil`; `none` stands for the false return. -/
structure Codec where
  serialize : Json → Option Bytes
  deserialize : Bytes → Option Json

def Json.items : Json → List Json
  | .array items => items
  | .object members => members.map Prod.snd
  | _ => []

def Json.field (key : Bytes) : Json → Option Json
  | .object members => some (((members.find? fun m => m.1 = key).map Prod.snd).getD .null)
  | .null => some .null
  | _ => none

def Json.asString : Json → Option Bytes
  | .string s => some s
  | .int n => some (toDecimal n)
  | .null => some []
  | _ => none

def Json.asInt64 : Json → Option ℤ
  | .int n => if -2^63 ≤ n ∧ n < 2^63 then some n else none
  | .null => some 0
  | _ => none

def newline (depth : ℕ) : Bytes := bytes "\n" ++ List.replicate depth 9

def quoted (s : Bytes) : Bytes := [quote] ++ s ++ [quote]

def plainScalar : Json → Bytes
  | .int n => toDecimal n
  | .string s => quoted s
  | _ => bytes "null"

def plainMember (depth : ℕ) (m : Bytes × Json) : Bytes :=
  newline depth ++ quoted m.1 ++ bytes " : " ++ plainScalar m.2

def plainObject (depth : ℕ) : Json → Bytes
  | .object members => bytes "\x7b" ++
      (bytes ",").intercalate (members.map (plainMember (depth+1))) ++ newline depth ++ bytes "\x7d"
  | j => plainScalar j

def plainText : Json → Bytes
  | .array items => bytes "[" ++
      (bytes ",").intercalate (items.map fun j => newline 1 ++ plainObject 1 j) ++
        newline 0 ++ bytes "]"
  | j => plainObject 0 j

def plainCodec : Codec where
  serialize := fun j => some (plainText j)
  deserialize := fun text => if text = bytes "null" then some .null else none

example : plainText (.object [(bytes "n", .int 2), (bytes "s", .string (bytes "t"))]) =
    bytes "\x7b\n\t\"n\" : 2,\n\t\"s\" : \"t\"\n\x7d" := by decide

end CloudBackup.JsonCodec
