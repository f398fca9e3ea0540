/-!
# Why a text is no YAML document
-/

namespace EtlFlow.Yaml

/-- Why a text is no YAML document. -/
inductive SyntaxError where
  | character (c : Char)
  | tab
  | missingColon
  | misplaced (what : String)
  | expected (what : String)
  | openScalar
  | escape (c : Char)
  | directive (name : String)
  | undefinedHandle (handle : String)
  | undefinedAlias (name : String)
  | severalDocuments
  | repeatedKey
  | emptyTag
  | outOfRange (number : String)
  | notOfType (text type : String)
  | tooDeep
  deriving DecidableEq, Repr

/-- The wording of an error. -/
def SyntaxError.message : SyntaxError → String
  | .character c => "character '" ++ toString c ++ "' cannot stand here"
  | .tab => "found a tab where indentation is expected"
  | .missingColon => "could not find expected ':'"
  | .misplaced what => what ++ " are not allowed in this context"
  | .expected what => "did not find expected " ++ what
  | .openScalar => "found unexpected end of scalar"
  | .escape c => "found unknown escape character '" ++ toString c ++ "'"
  | .directive name => "found bad directive " ++ name
  | .undefinedHandle h => "found undefined tag handle " ++ h
  | .undefinedAlias n => "unknown anchor " ++ n
  | .severalDocuments => "more than one document"
  | .repeatedKey => "duplicate entry in mapping"
  | .emptyTag => "empty tag"
  | .outOfRange n => "number " ++ n ++ " is out of range"
  | .notOfType text type => "'" ++ text ++ "' is not " ++ type
  | .tooDeep => "recursion limit exceeded"

end EtlFlow.Yaml
