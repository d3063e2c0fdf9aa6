import Prediction.Alternatives.Basic
import Prediction.Json

/-!
The JSON form of sets of alternatives and of conflicts. A set is written as an object with its
words; it is read from such an object, whatever else that has, or from an array of the words alone.
Words are kept as given, so a set that was read may end in empty words.
-/

namespace Prediction

namespace Alternatives

def toJson (s : Alternatives) : String :=
  "\x7b\"words\":[" ++ ",".intercalate (s.words.map toString) ++ "]\x7d"

def word? : Json → Option UInt64
  | .natural n => if n < UInt64.size then some (UInt64.ofNat n) else none
  | _ => none

def ofWords? : Json → Option Alternatives
  | .array elements => (elements.mapM word?).map Alternatives.mk
  | _ => none

/-- An object has to name its words once, and all of its keys have to be texts. -/
def ofJson? : Json → Option Alternatives
  | .array [words] => ofWords? words
  | .object members =>
    if members.all (·.1.isSome) then
      match members.filter (·.1 == some "words") with
      | [words] => ofWords? words.2
      | _ => none
    else none
  | _ => none

def parse? (text : String) : Option Alternatives :=
  (Json.parse? text).bind ofJson?

end Alternatives

def Conflict.toJson (c : Conflict) : String :=
  "\x7b\"conflicted_alts\":" ++ c.alternatives.toJson ++ ",\"exact\":" ++ toString c.exact ++ "\x7d"

end Prediction
