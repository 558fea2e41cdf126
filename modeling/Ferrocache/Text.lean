import Ferrocache.Data
import Mathlib.Data.List.Infix

/-!
# Text normalisation and namespace keys

`normalize_query_text` and the functions that build a namespace key from
`model_id`, `cache_scope` and `conversation_id` (`index.rs`), over plain
strings.
-/

namespace Ferrocache

/-- `char::is_whitespace`: the Unicode property `White_Space`. -/
def isWhitespace (c : Char) : Bool :=
  let n := c.toNat
  (0x09 ≤ n && n ≤ 0x0D) || n == 0x20 || n == 0x85 || n == 0xA0 || n == 0x1680 ||
    (0x2000 ≤ n && n ≤ 0x200A) || n == 0x2028 || n == 0x2029 || n == 0x202F ||
    n == 0x205F || n == 0x3000

/-- `s.trim().is_empty()`. -/
def isBlank (s : String) : Bool := s.toList.all isWhitespace

/-- `str::split_whitespace`. -/
def splitWhitespace (text : String) : List String :=
  ((text.toList.splitOnP isWhitespace).filter (· ≠ [])).map String.ofList

/-- The key of the exact-match index: words lowercased and joined by one space. -/
def normalizeQueryText [Platform] (text : String) : String :=
  " ".intercalate ((splitWhitespace text).map Platform.toLowercase)

/-- Namespace of a request without a conversation.  A blank scope counts as
absent. -/
def effectiveNamespace (modelId : String) (cacheScope : Option String) : String :=
  match cacheScope with
  | some scope => if !isBlank scope then modelId ++ "::" ++ scope else modelId
  | none => modelId

/-- The fallback level of the two-level lookup. -/
def baseNamespace (modelId : String) (cacheScope : Option String) : String :=
  effectiveNamespace modelId cacheScope

def conversationNamespace (modelId : String) (cacheScope : Option String)
    (conversationId : String) : String :=
  baseNamespace modelId cacheScope ++ "::conv_" ++ conversationId

/-- `key.contains("::conv_")`. -/
def isConversationKey (key : String) : Bool :=
  decide ("::conv_".toList <:+: key.toList)

/-- `.filter(|s| !s.trim().is_empty())` on an optional field. -/
def nonBlank (field : Option String) : Option String :=
  field.filter fun s => !isBlank s

end Ferrocache
