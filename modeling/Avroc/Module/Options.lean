import Avroc.Error.Basic
import Avroc.Text.Blank

/-!
# Compile options

The choices that shape the generated modules.
-/

namespace Avroc

/-- What Avro strings become. -/
inductive StringType
  | charSequence
  | string
  | utf8
deriving DecidableEq, Repr, Inhabited

namespace StringType

def name : StringType → String
  | charSequence => "CharSequence"
  | string => "String"
  | utf8 => "Utf8"

/-- The string type that a word spells, in either of two spellings. -/
def ofName (word : String) : Except Error StringType :=
  match word with
  | "CharSequence" | "CHAR_SEQUENCE" => .ok charSequence
  | "String" | "STRING" => .ok string
  | "Utf8" | "UTF8" => .ok utf8
  | word => .error (.choice (.stringType word))

/-- The Python types of a string. -/
def hint : StringType → String
  | charSequence => "str | bytes"
  | string => "str"
  | utf8 => "bytes"

end StringType

/-- How the fields of a generated class appear. -/
inductive FieldVisibility
  | isPrivate
  | isPublic
  | isDeprecated
deriving DecidableEq, Repr, Inhabited

namespace FieldVisibility

def name : FieldVisibility → String
  | isPrivate => "private"
  | isPublic => "public"
  | isDeprecated => "public_deprecated"

/-- The visibility that a word spells; case and surrounding white space do not count. -/
def ofName (word : String) : Except Error FieldVisibility :=
  match String.ofList ((Text.trim word.toList).map Char.toLower) with
  | "private" => .ok isPrivate
  | "public" => .ok isPublic
  | "public_deprecated" => .ok isDeprecated
  | _ => .error (.choice (.visibility word))

end FieldVisibility

/-- The choices that shape the generated modules. -/
structure CompileOptions where
  stringType : StringType := .charSequence
  visibility : FieldVisibility := .isDeprecated
  /-- Whether decimals become decimal numbers rather than bytes. -/
  decimals : Bool := true
  /-- Whether a schema file has to lie where its full name leads. -/
  checksLayout : Bool := false
deriving DecidableEq, Repr, Inhabited

def CompileOptions.document (o : CompileOptions) : Json :=
  .object
    [("string_type", .string o.stringType.name), ("field_visibility", .string o.visibility.name),
     ("enable_decimal_logical_type", .bool o.decimals), ("use_namespace", .bool o.checksLayout)]

end Avroc
