import Listfile.Json.Printer
import Listfile.Json.Record
import Listfile.SymbolTable
/-! # Symbol tables as JSON

A table is an object whose members are its definitions, in order. Reading one defines its members one after
the other, so that a repeated name keeps its first place and takes its last value.
-/
namespace Listfile.SymbolTable
set_option autoImplicit false

open Json (Reader Record)

def toJson (table : SymbolTable) : Json :=
  .object [("symbols", .object (table.entries.map fun (name, value) => (name, .string value)))]

def render (table : SymbolTable) : String := table.toJson.render .compact

def definitionsReader : Reader SymbolTable := do
  match ← Reader.peek with
  | some '{' =>
    let table ← Reader.nested do
      Reader.take
      Reader.fold (fun table name => do
        Reader.colon
        return table.define name (← Reader.string)) empty
    Reader.endObject
    return table
  | _ => Reader.mismatch "a map"

def reader : Reader SymbolTable := do
  let (table, ()) ← Record.read "SymbolTable" <| .member "symbols" definitionsReader none .done
  return table

def ofJson (text : String) : Except Json.ReadError SymbolTable := reader.runLimited text

end Listfile.SymbolTable
