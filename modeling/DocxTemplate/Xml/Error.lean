import DocxTemplate.Text.Utf8

/-! # Faults of an XML text

    Reading stops at the first fault. The causes are kept apart by the part of the text
    they concern: markup that is cut short, elements that do not match, attributes,
    references, and the encoding. `Error.message` holds all the wording.
-/

namespace DocxTemplate.Xml

/-- Markup that does not end, or that is of no known kind. -/
inductive SyntaxFault where
  | unclosedTag
  | unknownMarkup
  | unclosedComment
  | unclosedCData
  | unclosedDoctype
  | unclosedInstruction
  deriving DecidableEq, Repr

/-- Elements and declarations that are written well but do not fit. -/
inductive StructureFault where
  /-- An end tag that closes another element than the last one opened. -/
  | mismatchedEnd (expected found : String)
  /-- An end tag with nothing to close. -/
  | unmatchedEnd (found : String)
  /-- A document type declaration without a name. -/
  | missingDoctypeName
  deriving DecidableEq, Repr

/-- Faults of an attribute. Positions count from just behind the `<` of the tag. -/
inductive AttributeFault where
  | missingEquals (position : Nat)
  | missingValue (position : Nat)
  | unquotedValue (position : Nat)
  | missingQuote (position : Nat) (quote : Char)
  | duplicate (position first : Nat)
  deriving DecidableEq, Repr

/-- Faults of a number in a character reference. -/
inductive NumberFault where
  | sign
  | empty
  | badDigit
  | tooLarge
  | zero
  /-- A number that is no character, such as half of a surrogate pair. -/
  | noCharacter (code : Nat)
  deriving DecidableEq, Repr

/-- Faults of a reference. Positions are those of the text or value it stands in. -/
inductive ReferenceFault where
  | unknownEntity (first last : Nat) (name : String)
  | unterminated (first last : Nat)
  | number (fault : NumberFault)
  deriving DecidableEq, Repr

/-- The fault at which reading stops. -/
inductive Error where
  | markup (fault : SyntaxFault)
  | structural (fault : StructureFault)
  | attributes (fault : AttributeFault)
  | reference (fault : ReferenceFault)
  | encoding (fault : Utf8.Fault)
  deriving DecidableEq, Repr

/-! ## Wording -/

/-- The wording for markup that is not closed before the text ends. -/
def SyntaxFault.message : SyntaxFault → String
  | unclosedTag => "tag not closed: `>` not found before end of input"
  | unknownMarkup => "unknown or missed symbol in markup"
  | unclosedComment => "comment not closed: `-->` not found before end of input"
  | unclosedCData => "CDATA not closed: `]]>` not found before end of input"
  | unclosedDoctype => "DOCTYPE not closed: `>` not found before end of input"
  | unclosedInstruction =>
    "processing instruction or xml declaration not closed: `?>` not found before end of input"

/-- The wording for markup that does not fit together. -/
def StructureFault.message : StructureFault → String
  | mismatchedEnd expected found => s!"expected `</{expected}>`, but `</{found}>` was found"
  | unmatchedEnd found => s!"close tag `</{found}>` does not match any open tag"
  | missingDoctypeName =>
    "`<!DOCTYPE>` declaration does not contain a name of a document type"

/-- The wording for a faulty attribute, with its position in the tag. -/
def AttributeFault.message : AttributeFault → String
  | missingEquals p => s!"position {p}: attribute key must be directly followed by `=` or space"
  | missingValue p => s!"position {p}: `=` must be followed by an attribute value"
  | unquotedValue p => s!"position {p}: attribute value must be enclosed in `\"` or `'`"
  | missingQuote p quote => s!"position {p}: missing closing quote `{quote}` in attribute value"
  | duplicate p first =>
    s!"position {p}: duplicated attribute, previous declaration at position {first}"

/-- The wording for a number that stands for no character. -/
def NumberFault.message : NumberFault → String
  | sign => "unexpected number sign"
  | empty => "cannot parse integer from empty string"
  | badDigit => "invalid digit found in string"
  | tooLarge => "number too large to fit in target type"
  | zero => "0x0 character is not permitted in XML"
  | noCharacter code => s!"`{code}` is not a valid codepoint"

/-- The wording for a faulty reference, with its position in the text or value. -/
def ReferenceFault.message : ReferenceFault → String
  | unknownEntity first last name => s!"at {first}..{last}: unrecognized entity `{name}`"
  | unterminated first last =>
    s!"Error while escaping character at range {first}..{last}: Cannot find ';' after '&'"
  | number fault => "invalid character reference: " ++ fault.message

/-- The wording of an error, led by its kind. -/
def Error.message : Error → String
  | markup fault => "syntax error: " ++ fault.message
  | structural fault => "ill-formed document: " ++ fault.message
  | attributes fault => "error while parsing attribute: " ++ fault.message
  | reference fault => fault.message
  | encoding fault => "cannot decode input using UTF-8: " ++ fault.message

end DocxTemplate.Xml
