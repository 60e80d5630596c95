import Listfile.Json.Printer
import Listfile.Tree.Node
/-! # Trees as JSON

Each node is an object with its kind, its span and its position. The kind is itself an object with one
member: the tag of the node and what it consists of. A node of unknown kind is written as it was read.
-/
namespace Listfile
set_option autoImplicit false

def Span.toJson (span : Span) : Json := .object [("start", .ofNat span.start), ("end", .ofNat span.stop)]

namespace Node

/-- The object that holds the tag of a node and the given contents. -/
def tagged (node : Node) (payload : Json) : Json := .object [(node.tag, payload)]

/-- The object for a node that consists of the given contents. -/
def envelope (node : Node) (payload : Json) : Json :=
  .object [
    ("kind", node.tagged payload),
    ("span", node.span.toJson),
    ("line", .ofNat node.place.position.line),
    ("col", .ofNat node.place.position.column)]

mutual

def payload : Node → Json
  | toplevel _ statements => .object [("statements", .array (elements statements))]
  | block _ _ header body footer =>
    .object [
      ("header", header.envelope header.payload),
      ("body", .array (elements body)),
      ("footer", footer.envelope footer.payload)]
  | conditional _ ifClause elseifs elseClause footer =>
    .object [
      ("if_statement", ifClause.envelope ifClause.payload),
      ("elseif_statements", .array (elements elseifs)),
      ("else_statement", orNull elseClause),
      ("footer", footer.envelope footer.payload)]
  | clause _ _ header body =>
    .object [("header", header.envelope header.payload), ("body", .array (elements body))]
  | call _ name arguments => .object [("name", .string name), ("arguments", .array (elements arguments))]
  | inclusion _ filename options =>
    .object [("filename", .string filename), ("options", .array (options.map .string))]
  | word _ type contents => .object [("word_type", .string type.name), ("contents", .string contents)]
  | unrecognized _ _ payload => payload

def elements : List Node → List Json
  | [] => []
  | node :: rest => node.envelope node.payload :: elements rest

def orNull : Option Node → Json
  | none => .null
  | some node => node.envelope node.payload

end

def toJson (node : Node) : Json := node.envelope node.payload

def render (layout : Json.Layout) (node : Node) : String := node.toJson.render layout

end Node

end Listfile
