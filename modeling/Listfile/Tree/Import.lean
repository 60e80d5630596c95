import Listfile.Json.Record
import Listfile.Tree.Export
import Listfile.Tree.Schema
/-! # Trees from JSON

Reads what the export of a tree writes, and accepts members in any order as well as members that it does not
know. A node whose tag is not the name of a known kind is kept with its contents, whatever they are; a node of
known kind must have exactly the contents of that kind.
-/
namespace Listfile
set_option autoImplicit false

open Json (Reader Record)

def Span.reader : Reader Span := do
  let (start, stop, ()) ← Record.read "Span" <|
    .member "start" .natural none <| .member "end" .natural none .done
  return ⟨start, stop⟩

def WordType.reader : Reader WordType := Reader.variant (WordType.all.map fun type => (type.name, type))

def Kind.reader : Reader Kind := Reader.variant (Kind.all.map fun kind => (kind.name, kind))

def Slot.reader : Reader Slot := Reader.variant (Slot.all.map fun slot => (slot.tag, slot))

def HandlerKey.reader : Reader HandlerKey := Reader.variant (HandlerKey.all.map fun key => (key.name, key))

namespace Node

/-- What a node of known kind consists of, given a reader of nodes. The place of the node is left open. -/
def payloadReader (node : Reader Node) (kind : Kind) : Reader (Location → Node) :=
  let block (form : BlockForm) : Reader (Location → Node) := do
    let (header, body, footer, ()) ← Record.read "BlockStatement" <|
      .member "header" node none <| .member "body" (.list node) none <| .member "footer" node none .done
    return fun place => .block place form header body footer
  let clause (form : ClauseForm) : Reader (Location → Node) := do
    let (header, body, ()) ← Record.read "Clause" <|
      .member "header" node none <| .member "body" (.list node) none .done
    return fun place => .clause place form header body
  match kind with
  | .toplevel => do
    let (statements, ()) ← Record.read "ToplevelBody" <| .member "statements" (.list node) none .done
    return fun place => .toplevel place statements
  | .whileLoop => block .whileLoop
  | .foreachLoop => block .foreachLoop
  | .functionDefinition => block .functionDefinition
  | .macroDefinition => block .macroDefinition
  | .conditional => do
    let (ifClause, elseifs, elseClause, footer, ()) ← Record.read "IfBlock" <|
      .member "if_statement" node none <| .member "elseif_statements" (.list node) none <|
      .member "else_statement" (.optional node) (some none) <| .member "footer" node none .done
    return fun place => .conditional place ifClause elseifs elseClause footer
  | .ifClause => clause .ifClause
  | .elseifClause => clause .elseifClause
  | .elseClause => clause .elseClause
  | .call => do
    let (name, arguments, ()) ← Record.read "FunctionCall" <|
      .member "name" .string none <| .member "arguments" (.list node) none .done
    return fun place => .call place name arguments
  | .inclusion => do
    let (filename, options, ()) ← Record.read "Include" <|
      .member "filename" .string none <| .member "options" (.list .string) none .done
    return fun place => .inclusion place filename options
  | .word => do
    let (type, contents, ()) ← Record.read "Word" <|
      .member "word_type" WordType.reader none <| .member "contents" .string none .done
    return fun place => .word place type contents

/-- The object that holds the tag and the contents of a node. -/
def kindReader (node : Reader Node) : Reader (Location → Node) := do
  let expected := "a map with a single node kind key"
  match ← Reader.peek with
  | some '{' =>
    let ofPlace ← Reader.nested do
      Reader.take
      unless ← Reader.hasMember true do throw (.wrongLength 0 expected)
      let tag ← Reader.stringBody
      Reader.colon
      let ofPlace ←
        match Kind.ofName? tag with
        | some kind => payloadReader node kind
        | none => do
          let payload ← Reader.value
          pure fun place => .unrecognized place tag payload
      if ← Reader.hasMember false then
        let _ ← Reader.stringBody
        throw (.wrongLength 2 expected)
      return ofPlace
    Reader.endObject
    return ofPlace
  | _ => Reader.mismatch expected

/-- A node that is at most as deep as there are characters in `depth`. -/
def readerWithin : List Char → Reader Node
  | [] => throw .nestedTooDeep
  | _ :: depth => do
    let (ofPlace, span, line, column, ()) ← Record.read "Node" <|
      .member "kind" (kindReader (readerWithin depth)) none <| .member "span" Span.reader none <|
      .member "line" .natural none <| .member "col" .natural none .done
    return ofPlace ⟨span, ⟨line, column⟩⟩

def reader : Reader Node := do readerWithin (← Reader.measure)

def ofJson (text : String) : Except Json.ReadError Node := reader.runUnlimited text

end Node

end Listfile
