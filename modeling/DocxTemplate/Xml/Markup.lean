import DocxTemplate.Text.Case
import DocxTemplate.Xml.Attribute

/-! # Markup

    Whatever follows a `<`: tags, character sections, and the kinds of markup that carry
    no content. `Markup.read` finds the end of the markup a text starts with. Each kind
    has its own rule for it:

    * a tag ends at the first `>` outside quotes,
    * a comment at the first `-->` behind its opening, a character section at `]]>`,
      an instruction at `?>`,
    * a document type declaration at the `>` that balances the `<`s in it.
-/

namespace DocxTemplate.Xml

/-- A piece of markup without its delimiters. -/
inductive Markup where
  /-- A start tag: its name and attributes. -/
  | startTag (content : Bytes)
  /-- A tag that opens and closes an element. -/
  | emptyTag (content : Bytes)
  /-- An end tag. -/
  | endTag (name : Bytes)
  /-- A character section, which holds no references. -/
  | cdata (content : Bytes)
  /-- A comment, an instruction or a declaration. -/
  | other
  deriving DecidableEq, Repr

namespace Markup

/-! ## Ends -/

/-- The position of the first `>` outside quotes; `quote?` is the quote the text starts
    inside of. -/
def tagEnd? (quote? : Option UInt8) : Bytes → Option Nat
  | [] => none
  | b :: rest =>
    match quote? with
    | some q => (tagEnd? (if b == q then none else some q) rest).map (· + 1)
    | none =>
      if b == '>'.toUInt8 then some 0
      else
        (tagEnd? (if b == 0x22 || b == 0x27 then some b else none) rest).map (· + 1)

/-- The position of the `>` that closes a declaration with `depth` inner `<` still open. -/
def declarationEnd? (depth : Nat) : Bytes → Option Nat
  | [] => none
  | b :: rest =>
    if b == '<'.toUInt8 then (declarationEnd? (depth + 1) rest).map (· + 1)
    else if b == '>'.toUInt8 then
      match depth with
      | 0 => some 0
      | d + 1 => (declarationEnd? d rest).map (· + 1)
    else (declarationEnd? depth rest).map (· + 1)

/-! ## Kinds -/

/-- A comment, given what follows `<!`. -/
def readComment (text : Bytes) : Except SyntaxFault (Markup × Nat) :=
  match Bytes.indexOf? (Bytes.ofString "-->") (text.drop 2) with
  | some i =>
    if Bytes.opensWith "--" text then .ok (.other, 2 + i + 3) else .error .unclosedComment
  | none => .error .unclosedComment

/-- A character section, given what follows `<!`. -/
def readCData (text : Bytes) : Except SyntaxFault (Markup × Nat) :=
  match Bytes.indexOf? (Bytes.ofString "]]>") text with
  | some i =>
    if Bytes.opensWith "[CDATA[" text then .ok (.cdata ((text.take i).drop 7), i + 3)
    else .error .unclosedCData
  | none => .error .unclosedCData

/-- A document type declaration, given what follows `<!`. Its keyword may be written in
    any case. -/
def readDoctype (text : Bytes) : Except Error (Markup × Nat) :=
  match declarationEnd? 0 text with
  | some i =>
    let content := text.take i
    if (content.take 7).map Case.upper == Bytes.ofString "DOCTYPE" then
      if (content.drop 7).all isBlank then .error (.structural .missingDoctypeName)
      else .ok (.other, i + 1)
    else .error (.markup .unclosedDoctype)
  | none => .error (.markup .unclosedDoctype)

/-- Markup that starts with `<!`, given what follows. -/
def readBang (text : Bytes) : Except Error (Markup × Nat) :=
  let b? := text.head?
  if b? == some '-'.toUInt8 then (readComment text).mapError .markup
  else if b? == some '['.toUInt8 then (readCData text).mapError .markup
  else if b?.map Case.upper == some 'D'.toUInt8 then readDoctype text
  else .error (.markup .unknownMarkup)

/-- An instruction, given what follows `<`. Its `?` may not serve as both ends. -/
def readInstruction (text : Bytes) : Except SyntaxFault (Markup × Nat) :=
  match Bytes.indexOf? (Bytes.ofString "?>") text with
  | some (i + 1) => .ok (.other, i + 3)
  | _ => .error .unclosedInstruction

/-- The name in an end tag, which may have blanks behind it. -/
def endName (content : Bytes) : Bytes :=
  if content.all isBlank then content else Bytes.trimEnd isBlank content

/-- A tag of any kind, given what follows `<`. -/
def readTag (text : Bytes) : Except SyntaxFault (Markup × Nat) :=
  match tagEnd? none text with
  | none => .error .unclosedTag
  | some i =>
    let content := text.take i
    let markup :=
      if content.head? == some '/'.toUInt8 then .endTag (endName (content.drop 1))
      else if content.getLast? == some '/'.toUInt8 then .emptyTag content.dropLast
      else .startTag content
    .ok (markup, i + 1)

/-- The markup whose `<` stands just before a text, and how many bytes of the text it
    takes. -/
def read (text : Bytes) : Except Error (Markup × Nat) :=
  match text with
  | [] => .error (.markup .unclosedTag)
  | b :: rest =>
    if b == '!'.toUInt8 then (readBang rest).map fun (m, n) => (m, n + 1)
    else if b == '?'.toUInt8 then (readInstruction text).mapError .markup
    else (readTag text).mapError .markup

end Markup

end DocxTemplate.Xml
