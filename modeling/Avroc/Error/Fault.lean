import Avroc.Json.Literal
import Avroc.Json.Printer

/-!
# Faults of a definition

What can be wrong with an Avro definition, in JSON or in the definition language.

* `Fault.message` : the wording of a cause.
-/

namespace Avroc

/-- Why a definition is refused. -/
inductive Fault
  -- names
  | undefinedName (name : String)
  | redefined (fullName : String)
  | illegalName (name : String)
  | namespaceNotText (value : Json)
  -- types in JSON
  | invalidJson (problem : String)
  | notASchema (value : Json)
  | noType (schema : Json)
  | typeNotText (value : Json)
  | noName (schema : Json)
  | noItems (schema : Json)
  | noValues (schema : Json)
  | noFields (schema : Json)
  | noSymbols (schema : Json)
  | badSize (schema : Json)
  | aliasesNotTexts (value : Json)
  | symbolNotText (value : Json)
  | duplicateSymbol (symbol : String)
  | defaultNotSymbol (value : Json) (symbols : List String)
  | nestedUnion
  | duplicateBranch (key : String)
  -- fields
  | fieldNotObject (value : Json)
  | noFieldName (field : Json)
  | noFieldType (field : String)
  | badOrder (field : String) (value : Json)
  | badDefault (field : String) (value : Json) (type : Json)
  | duplicateField (field record : String)
  -- protocols in JSON
  | protocolNotObject
  | noProtocolName
  | typesNotArray
  | unnamedType (type : Json)
  | messagesNotObject
  | messageNotObject (message : String)
  | noRequest (message : String)
  | noResponse (message : String)
  | notAnError (type : Json)
  | oneWay (message : String)
  -- the definition language
  | unexpectedCharacter (c : Char)
  | expected (word : String) (found : Option String)
  | expectedIdentifier (found : Option String)
  | expectedSimpleName (found : String)
  | expectedType (found : Option String)
  | expectedString (found : Option String)
  | expectedInteger (found : Option String)
  | expectedJson (found : Option String)
  | expectedImportKind
  | invalidString (literal : String)
  | endInProtocol
  | endInRecord (record : String)
  | afterProtocol (found : Option String)
  | aliasesNotList (value : Json)
  | optionalUnion
  | duplicateMessage (message : String)
  | stated (message : String)
deriving Inhabited

namespace Fault

/-- What stood where something else was expected. -/
def foundText : Option String → String
  | some token => Text.quote token
  | none => "end of file"

def message : Fault → String
  | undefinedName name => "Undefined name: " ++ name
  | redefined fullName => "Can't redefine: " ++ fullName
  | illegalName name => "Illegal name: " ++ Text.quote name
  | namespaceNotText value => "Namespace must be a string: " ++ value.literal
  | invalidJson problem => "Invalid JSON: " ++ problem
  | notASchema value => "Schema must be a string, object or array, got: " ++ value.literal
  | noType schema => "No type: " ++ schema.render
  | typeNotText value => "Type must be a string, got: " ++ value.literal
  | noName schema => "No name in schema: " ++ schema.render
  | noItems schema => "Array has no items type: " ++ schema.render
  | noValues schema => "Map has no values type: " ++ schema.render
  | noFields schema => "Record has no fields: " ++ schema.render
  | noSymbols schema => "Enum has no symbols: " ++ schema.render
  | badSize schema => "Invalid or no size: " ++ schema.render
  | aliasesNotTexts value => "Aliases must be a list of strings: " ++ value.literal
  | symbolNotText value => "Enum symbol must be a string: " ++ value.literal
  | duplicateSymbol symbol => "Duplicate enum symbol: " ++ symbol
  | defaultNotSymbol value symbols =>
    "The Enum Default: " ++ value.shown ++ " is not in the enum symbol set: " ++
      (Json.array (symbols.map .string)).literal
  | nestedUnion => "Nested union: unions may not immediately contain unions"
  | duplicateBranch key => "Duplicate in union: " ++ key
  | fieldNotObject value => "Field must be an object, got: " ++ value.literal
  | noFieldName field => "No field name: " ++ field.render
  | noFieldType field => "No field type: " ++ field
  | badOrder field value => "Invalid order for field " ++ field ++ ": " ++ value.literal
  | badDefault field value type =>
    "Invalid default for field " ++ field ++ ": " ++ value.render ++ " not a " ++ type.render
  | duplicateField field record => "Duplicate field " ++ field ++ " in record " ++ record
  | protocolNotObject => "Protocol must be a JSON object"
  | noProtocolName => "No protocol name specified"
  | typesNotArray => "Protocol types must be an array"
  | unnamedType type => "Protocol types must be named, got: " ++ type.render
  | messagesNotObject => "Protocol messages must be an object"
  | messageNotObject name => "Message " ++ name ++ " must be an object"
  | noRequest name => "No request specified for message " ++ name
  | noResponse name => "No response specified for message " ++ name
  | notAnError type => "Not an error type: " ++ type.render
  | oneWay name => "One way message " ++ name ++ " can't have a response or errors"
  | unexpectedCharacter c => "Unexpected character " ++ Text.quote (String.singleton c)
  | expected word found => "Expected " ++ Text.quote word ++ ", found " ++ foundText found
  | expectedIdentifier found => "Expected identifier, found " ++ foundText found
  | expectedSimpleName found => "Expected simple name, found " ++ Text.quote found
  | expectedType found => "Expected a type, found " ++ foundText found
  | expectedString found => "Expected string literal, found " ++ foundText found
  | expectedInteger found => "Expected integer, found " ++ foundText found
  | expectedJson found => "Expected a JSON value, found " ++ foundText found
  | expectedImportKind => "Expected idl, protocol or schema after import"
  | invalidString literal => "Invalid string literal " ++ literal
  | endInProtocol => "Unexpected end of file in protocol body"
  | endInRecord record => "Unexpected end of file in record " ++ record
  | afterProtocol found => "Unexpected " ++ foundText found ++ " after protocol"
  | aliasesNotList value => "Aliases must be a list: " ++ value.literal
  | optionalUnion => "Unions can't be made optional with '?'"
  | duplicateMessage name => "Duplicate message: " ++ name
  | stated text => text

/-- Whether a later definition may repair the fault. -/
def isUndefinedName (fault : Fault) : Bool :=
  "Undefined name".toList.isPrefixOf fault.message.toList

end Fault

end Avroc
