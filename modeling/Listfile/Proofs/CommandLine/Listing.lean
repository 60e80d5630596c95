import Listfile.Proofs.CommandLine.Interchange
import Listfile.Proofs.Walk.Selection
/-! # What a listing prints

The command `dump` prints a text and a line feed for each selected node. The text has what a node is called as it stands,
so a line feed in the name of a call, in that of a file or in a word ends a line within the text. There are as many lines
as nodes and as such line feeds together.
-/
namespace Listfile
set_option autoImplicit false

/-! ## Line feeds -/

def lineFeeds (text : String) : Nat := text.toList.count '\n'

theorem lineFeeds_append (text more : String) : lineFeeds (text ++ more) = lineFeeds text + lineFeeds more := by
  rw [lineFeeds, String.toList_append, List.count_append]
  rfl

theorem lineFeeds_eq_zero {text : String} : lineFeeds text = 0 ↔ '\n' ∉ text.toList := List.count_eq_zero

theorem lineFeeds_toString (n : Nat) : lineFeeds (toString n) = 0 := by
  rw [lineFeeds_eq_zero, Nat.toString_eq_repr, Nat.toList_repr]
  intro hMem
  exact absurd (Nat.isDigit_of_mem_toDigits (by decide) (by decide) hMem) (by decide)

theorem lineFeeds_blanks (n : Nat) : lineFeeds (String.ofList (List.replicate n ' ')) = 0 := by
  rw [lineFeeds_eq_zero, String.toList_ofList]
  intro hMem
  exact absurd (List.eq_of_mem_replicate hMem) (by decide)

theorem Kind.lineFeeds_name (kind : Kind) : lineFeeds kind.name = 0 := by cases kind <;> decide

/-- No part of a line but the one in brackets can have a line feed. -/
theorem Node.lineFeeds_listing {node : Node} (h : node.kind?.isSome) (depth : Nat) :
    lineFeeds (node.listing depth) = lineFeeds node.bracketed := by
  obtain ⟨kind, hKind⟩ := Option.isSome_iff_exists.mp h
  have hFixed : lineFeeds " " = 0 ∧ lineFeeds " (" = 0 ∧ lineFeeds ":" = 0 ∧ lineFeeds ")" = 0 := by decide
  obtain ⟨hBlank, hOpening, hColon, hClosing⟩ := hFixed
  simp only [listing, tag_of_kind hKind, lineFeeds_append, lineFeeds_toString, lineFeeds_blanks, kind.lineFeeds_name,
    hBlank, hOpening, hColon, hClosing, Nat.zero_add]

namespace CommandLine

theorem lines_cons (line : String) (rest : List String) :
    Outcome.lines (line :: rest) = line ++ "\n" ++ Outcome.lines rest := String.join_cons

theorem lineFeeds_lines (lines : List String) :
    lineFeeds (Outcome.lines lines) = lines.length + (lines.map lineFeeds).sum := by
  have hEnd : lineFeeds "\n" = 1 := by decide
  induction lines with
  | nil => rfl
  | cons line rest ih =>
    rw [lines_cons, lineFeeds_append, lineFeeds_append, hEnd, ih, List.length_cons, List.map_cons, List.sum_cons]
    omega

/-- Whether some lines, none of which has a line feed in it, make up a text if each is ended by one. -/
structure IsLines (text : String) (lines : List String) : Prop where
  text_eq : text = Outcome.lines lines
  unbroken : ∀ line ∈ lines, '\n' ∉ line.toList

theorem IsLines.length_eq {text : String} {lines : List String} (h : IsLines text lines) :
    lines.length = lineFeeds text := by
  have hSum : (lines.map lineFeeds).sum = 0 := by
    refine List.sum_eq_zero_iff_forall_eq_nat.mpr fun count hMem => ?_
    obtain ⟨line, hLine, rfl⟩ := List.mem_map.mp hMem
    exact lineFeeds_eq_zero.mpr (h.unbroken line hLine)
  rw [h.text_eq, lineFeeds_lines, hSum, Nat.add_zero]

/-- The keys of the nodes that are listed. -/
def selectedKeys (only : List HandlerKey) : List HandlerKey :=
  if only = [] then HandlerKey.all.filter (· ≠ .toplevel) else only

/-- The texts that are printed for nodes at their positions. -/
def listedTexts (entries : List (Path × Node)) : List String := entries.map fun entry => entry.2.listing entry.1.length

theorem dump_eq (only : List HandlerKey) (root : Node) :
    dump only root = listedTexts (root.selected (selectedKeys only)) := by
  rw [listedTexts, ← Walk.collect_dumpLine]
  cases only <;> rfl

section entries

variable {keys : List HandlerKey} {root : Node} {entries : List (Path × Node)}

theorem lineFeeds_listedTexts (h : Selects keys root entries) :
    lineFeeds (Outcome.lines (listedTexts entries)) =
      entries.length + (entries.map fun entry => lineFeeds entry.2.bracketed).sum := by
  have hTexts : (listedTexts entries).map lineFeeds = entries.map fun entry => lineFeeds entry.2.bracketed := by
    rw [listedTexts, List.map_map]
    apply List.map_congr_left
    intro entry hMem
    rw [Function.comp_apply, Node.lineFeeds_listing (h.kind?_isSome hMem)]
  rw [lineFeeds_lines, hTexts, listedTexts, List.length_map]

theorem isLines_listedTexts (h : Selects keys root entries) :
    IsLines (Outcome.lines (listedTexts entries)) (listedTexts entries) ↔
      ∀ entry ∈ entries, '\n' ∉ entry.2.bracketed.toList := by
  have hText {entry : Path × Node} (hMem : entry ∈ entries) :
      '\n' ∉ (entry.2.listing entry.1.length).toList ↔ '\n' ∉ entry.2.bracketed.toList := by
    rw [← lineFeeds_eq_zero, Node.lineFeeds_listing (h.kind?_isSome hMem), lineFeeds_eq_zero]
  constructor
  · intro hLines entry hMem
    exact (hText hMem).mp (hLines.unbroken _ (List.mem_map_of_mem hMem))
  · refine fun hBracketed => ⟨rfl, fun line hLine => ?_⟩
    obtain ⟨entry, hMem, rfl⟩ := List.mem_map.mp hLine
    exact (hText hMem).mpr (hBracketed entry hMem)

end entries

/-- A listing of any file that is loaded prints, for each visible node with one of the selected keys, its text and a line
feed, in the order of a walk. There are as many lines as such nodes and as line feeds in what stands in brackets. So
there is one line for each node, which is its text, exactly if no selected node has a line feed there. -/
theorem listing_has_line_per_node {read : String → Except ReadFailure ByteArray} {input : Input} {bytes : ByteArray}
    {document : Document} {arguments : List String} {only : List HandlerKey}
    (hArguments : Request.ofArguments arguments = .ok ⟨input, .dump only⟩) (hRead : read input.file = .ok bytes)
    (hLoad : input.load (.ok bytes) = .ok document) :
    ∃ entries, Selects (selectedKeys only) document.root entries ∧
      run arguments read = ⟨0, Outcome.lines (listedTexts entries), []⟩ ∧
      lineFeeds (run arguments read).output =
        entries.length + (entries.map fun entry => lineFeeds entry.2.bracketed).sum ∧
      (IsLines (run arguments read).output (listedTexts entries) ↔
        ∀ entry ∈ entries, '\n' ∉ entry.2.bracketed.toList) := by
  have hSelects := selects_selected (selectedKeys only) document.root
  have hRun : run arguments read =
      ⟨0, Outcome.lines (listedTexts (document.root.selected (selectedKeys only))), []⟩ := by
    rw [run_of_load hArguments hRead hLoad, Action.result, dump_eq]
    rfl
  rw [hRun]
  exact ⟨_, hSelects, rfl, lineFeeds_listedTexts hSelects, isLines_listedTexts hSelects⟩

/-- A listing of the words of a script, one of which has a line feed. -/
theorem listing_has_line_per_node_of_words :
    let source := "while(A)\nmessage(\"b\nc\")\nendwhile()"
    let read (_ : String) : Except ReadFailure ByteArray := .ok source.toUTF8
    let arguments := ["dump", "--only", "word", "script"]
    Request.ofArguments arguments = .ok ⟨⟨"script", false⟩, .dump [.word]⟩ ∧
      ∃ document entries, Input.load ⟨"script", false⟩ (.ok source.toUTF8) = .ok document ∧
        Selects [.word] document.root entries ∧
        lineFeeds (run arguments read).output =
          entries.length + (entries.map fun entry => lineFeeds entry.2.bracketed).sum := by
  intro source read arguments
  have hArguments : Request.ofArguments arguments = .ok ⟨⟨"script", false⟩, .dump [.word]⟩ :=
    eq_ok_of_toOption (by decide +kernel)
  cases hParse : parse source with
  | error error =>
    have hOk : (parse source).isOk := by decide +kernel
    rw [hParse] at hOk
    cases hOk
  | ok root =>
    have hLoad : Input.load ⟨"script", false⟩ (.ok source.toUTF8) = .ok ⟨"script", root, some source⟩ :=
      Input.load_script (fromUTF8?_toUTF8 source) hParse
    have hRead : read "script" = .ok source.toUTF8 := rfl
    obtain ⟨entries, hSelects, -, hCount, -⟩ := listing_has_line_per_node hArguments hRead hLoad
    exact ⟨hArguments, _, entries, hLoad, hSelects, hCount⟩

/-- A call with one word that has a line feed: two nodes are listed, on three lines. -/
theorem line_feed_breaks_line :
    let source := "f(\"a\nb\")"
    let read (_ : String) : Except ReadFailure ByteArray := .ok source.toUTF8
    let output := (run ["dump", "script"] read).output
    ∃ document entries, Input.load ⟨"script", false⟩ (.ok source.toUTF8) = .ok document ∧
      Selects (HandlerKey.all.filter (· ≠ .toplevel)) document.root entries ∧ entries.length = 2 ∧
      output = "1  FunctionCall (1:1) [f]\n2   Word (1:3) [Quoted a\nb]\n" ∧
      (∀ lines, IsLines output lines → lines.length = 3) ∧ ¬IsLines output (listedTexts entries) := by
  intro source read output
  let place : Location := ⟨⟨0, 8⟩, ⟨1, 1⟩⟩
  let root : Node := .toplevel place [.call place "f" [.word ⟨⟨2, 7⟩, ⟨1, 3⟩⟩ .quoted "a\nb"]]
  have hParse : parse "f(\"a\nb\")" = .ok root := by with_unfolding_all rfl
  have hOutput : output = "1  FunctionCall (1:1) [f]\n2   Word (1:3) [Quoted a\nb]\n" := by decide +kernel
  have hThree (lines : List String) (h : IsLines output lines) : lines.length = 3 := by
    rw [h.length_eq, hOutput]
    decide +kernel
  have hTwo : (root.selected (HandlerKey.all.filter (· ≠ .toplevel))).length = 2 := by with_unfolding_all rfl
  refine ⟨_, _, Input.load_script (fromUTF8?_toUTF8 source) hParse, selects_selected _ root, hTwo, hOutput, hThree,
    fun hLines => ?_⟩
  have hLength := hThree _ hLines
  rw [listedTexts, List.length_map, hTwo] at hLength
  cases hLength

end CommandLine

end Listfile
