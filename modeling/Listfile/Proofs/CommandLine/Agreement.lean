import Listfile.Proofs.CommandLine.Interchange
import Listfile.Proofs.Resolve.Strictness
import Listfile.Proofs.Tree.RoundTrip
import Listfile.Proofs.Walk.Collect
/-! # Two commands for one resolution

The commands `resolve` and `parse --resolve` resolve the same tree. They end with the same status and have the same
reports, and what the one prints of the inclusions is what a walk finds in the tree that the other prints.
-/
namespace Listfile
set_option autoImplicit false

/-! ## Visible inclusions -/

namespace Node

/-- The file and the position of an inclusion. -/
def inclusion? : Node → Option (String × Position)
  | inclusion place filename _ => some (filename, place.position)
  | _ => none

/-- The inclusions that a walk comes to, in its order. -/
def visibleInclusions (root : Node) : List (String × Position) :=
  root.walkOrder.filterMap fun entry => entry.2.inclusion?

theorem visibleInclusions_reread (root : Node) : root.reread.visibleInclusions = root.visibleInclusions := by
  have hInclusion (node : Node) : (node.mapFields rereading).inclusion? = node.inclusion? := by cases node <;> rfl
  rw [visibleInclusions, visibleInclusions, reread, walkOrder_mapFields, List.filterMap_map]
  refine List.filterMap_congr fun entry _ => hInclusion entry.2

end Node

namespace CommandLine

/-- The line that is printed for an inclusion. -/
def inclusionText (inclusion : String × Position) : String := "include " ++ inclusion.1 ++ " " ++ inclusion.2.text

def symbolText (entry : String × String) : String := entry.1 ++ " = " ++ entry.2

theorem inclusionLines_eq (root : Node) :
    (inclusions root).map (fun (node, _) => inclusionLine node) = root.visibleInclusions.map inclusionText := by
  rw [inclusions, Walk.collect_eq, Node.visibleInclusions, List.map_filterMap, List.map_filterMap]
  refine List.filterMap_congr fun entry _ => ?_
  obtain ⟨path, node⟩ := entry
  cases node with
  | block place form => cases form <;> rfl
  | clause place form => cases form <;> rfl
  | _ => rfl

theorem resolutionLines_eq (resolution : Resolution) : resolutionLines resolution =
    resolution.tree.visibleInclusions.map inclusionText ++ "-- symbols --" ::
      resolution.symbols.entries.map symbolText := by
  rw [resolutionLines, inclusionLines_eq]
  rfl

/-! ## Loading -/

theorem utf8ByteSize_of_fromUTF8? {bytes : ByteArray} {text : String} (h : String.fromUTF8? bytes = some text) :
    text.utf8ByteSize = bytes.size := by
  rw [String.fromUTF8?] at h
  split at h
  · cases h
    rfl
  · cases h

/-- Whatever file is loaded, the tree comes from a script or from a text. -/
theorem Input.obtained_of_load {input : Input} {bytes : ByteArray} {document : Document}
    (hSize : bytes.size < 0x8000000000000000) (h : input.load (.ok bytes) = .ok document) :
    document.root.Obtained := by
  unfold load at h
  simp only [Except.mapError, bind, Except.bind] at h
  split at h
  · cases h
  · rename_i text hText
    split at h
    · cases hRead : Node.ofJson text with
      | error error =>
        rw [hRead] at h
        cases h
      | ok root =>
        rw [hRead] at h
        cases h
        exact .read hRead
    · cases hParse : parse text with
      | error error =>
        rw [hParse] at h
        cases h
      | ok root =>
        rw [hParse] at h
        cases h
        rw [← utf8ByteSize_of_fromUTF8? hText] at hSize
        exact .parsed hSize hParse

/-- The tree that `parse` prints is read, and a walk finds the same inclusions in it. -/
theorem exists_ofJson_render {root : Node} (h : root.Obtained) (layout : Json.Layout) :
    ∃ back, Node.ofJson (Outcome.lines [root.render layout]) = .ok back ∧
      back.visibleInclusions = root.visibleInclusions := by
  refine ⟨root.reread, ?_, root.visibleInclusions_reread⟩
  rw [lines_singleton]
  exact Node.ofJson_render_append_of_sound layout h.sound blank_lineFeed

/-! ## Strict mode -/

namespace ResolveOptions

variable (options : ResolveOptions) (root : Node)

def withStrict (strict : Bool) : ResolveOptions := { options with strict }

theorem tree_withStrict (strict : Bool) : ((options.withStrict strict).apply root).tree = (options.apply root).tree ∧
    ((options.withStrict strict).apply root).symbols = (options.apply root).symbols := by
  obtain ⟨hTree, hSymbols, -⟩ := Resolve.resolve_strict options.command (.ofList options.definitions) root
  obtain ⟨definitions, command, given⟩ := options
  cases strict <;> cases given
  · exact ⟨rfl, rfl⟩
  · exact ⟨hTree.symm, hSymbols.symm⟩
  · exact ⟨hTree, hSymbols⟩
  · exact ⟨rfl, rfl⟩

/-- Only in strict mode are there diagnostics. -/
theorem diagnostics_apply : (options.apply root).diagnostics =
    if options.strict then ((options.withStrict true).apply root).diagnostics else [] := by
  obtain ⟨-, -, hSilent⟩ := Resolve.resolve_strict options.command (.ofList options.definitions) root
  obtain ⟨definitions, command, given⟩ := options
  cases given
  · exact hSilent
  · rfl

theorem status_outcome_apply (document : Document) (output : String) :
    (document.outcome output (options.apply root).diagnostics).status =
      if options.strict ∧ ((options.withStrict true).apply root).diagnostics ≠ [] then 1 else 0 := by
  rw [Document.status_outcome, options.diagnostics_apply root]
  generalize ((options.withStrict true).apply root).diagnostics = reported
  cases options.strict <;> cases reported <;> rfl

theorem resolutionLines_withStrict (strict : Bool) :
    resolutionLines ((options.withStrict strict).apply root) = resolutionLines (options.apply root) := by
  obtain ⟨hTree, hSymbols⟩ := options.tree_withStrict root strict
  rw [resolutionLines_eq, resolutionLines_eq, hTree, hSymbols]

end ResolveOptions

/-! ## Runs -/

/-- For every file that is read and loaded, be it a script or an exported tree, and for all options, `resolve` and
`parse --resolve` have the same status, which is 1 if and only if `--strict` is given and there is something to report,
and the same reports, which are those of the diagnostics. The tree that `parse` prints is read, and its visible
inclusions in the order of a walk are those of which `resolve` prints a line each. What they print does not depend on
`--strict`. A file has less than `2 ^ 63` bytes, as every text in memory. -/
theorem resolve_agrees_with_parse {read : String → Except ReadFailure ByteArray} {input : Input} {bytes : ByteArray}
    {document : Document} (hSize : bytes.size < 0x8000000000000000) (hRead : read input.file = .ok bytes)
    (hLoad : input.load (.ok bytes) = .ok document) (options : ResolveOptions) (layout : Json.Layout)
    {resolving parsing : List String} (hResolving : Request.ofArguments resolving = .ok ⟨input, .resolve options⟩)
    (hParsing : Request.ofArguments parsing = .ok ⟨input, .parse (some options) layout⟩) :
    let resolution := options.apply document.root
    let reported := ((options.withStrict true).apply document.root).diagnostics
    let resolved := run resolving read
    let parsed := run parsing read
    resolved.status = parsed.status ∧ resolved.status = (if options.strict ∧ reported ≠ [] then 1 else 0) ∧
    resolved.reports = parsed.reports ∧
    resolved = document.outcome resolved.output resolution.diagnostics ∧
    parsed = document.outcome parsed.output resolution.diagnostics ∧
    (∃ back, Node.ofJson parsed.output = .ok back ∧
      resolved.output = Outcome.lines (back.visibleInclusions.map inclusionText ++ "-- symbols --" ::
        resolution.symbols.entries.map symbolText)) ∧
    ∀ strict resolving' parsing',
      Request.ofArguments resolving' = .ok ⟨input, .resolve (options.withStrict strict)⟩ →
      Request.ofArguments parsing' = .ok ⟨input, .parse (some (options.withStrict strict)) layout⟩ →
      (run resolving' read).output = resolved.output ∧ (run parsing' read).output = parsed.output := by
  intro resolution reported resolved parsed
  have hResolved : resolved = document.outcome (Outcome.lines (resolutionLines resolution)) resolution.diagnostics :=
    run_of_load hResolving hRead hLoad
  have hParsed : parsed = document.outcome (Outcome.lines [resolution.tree.render layout]) resolution.diagnostics :=
    run_of_load hParsing hRead hLoad
  have hResolvedOutput : resolved.output = Outcome.lines (resolutionLines resolution) := by
    rw [hResolved, Document.output_outcome]
  have hParsedOutput : parsed.output = Outcome.lines [resolution.tree.render layout] := by
    rw [hParsed, Document.output_outcome]
  refine ⟨?_, ?_, ?_, ?_, ?_, ?_, ?_⟩
  · rw [hResolved, hParsed, Document.status_outcome, Document.status_outcome]
  · rw [hResolved]
    exact options.status_outcome_apply document.root document _
  · rw [hResolved, hParsed, Document.reports_outcome, Document.reports_outcome]
  · rw [hResolvedOutput]
    exact hResolved
  · rw [hParsedOutput]
    exact hParsed
  · have hObtained : resolution.tree.Obtained :=
      .resolved options.command options.strict _ (Input.obtained_of_load hSize hLoad)
    obtain ⟨back, hBack, hSame⟩ := exists_ofJson_render hObtained layout
    refine ⟨back, hParsedOutput ▸ hBack, ?_⟩
    rw [hResolvedOutput, resolutionLines_eq, hSame]
  · intro strict resolving' parsing' hResolving' hParsing'
    constructor
    · rw [hResolvedOutput, run_of_load hResolving' hRead hLoad, Document.output_outcome, Action.result,
        options.resolutionLines_withStrict]
    · rw [hParsedOutput, run_of_load hParsing' hRead hLoad, Document.output_outcome, Action.result,
        (options.tree_withStrict document.root strict).1]

/-- A tree with a node of unknown kind that holds a double, and an inclusion by a reference to no name. -/
theorem resolve_agrees_with_parse_of_unknown :
    let text := "[\x7b\"ToplevelBody\":[[[\x7b\"Note\":0.1\x7d,[0,4],1,1]," ++
      "[\x7b\"Include\":[\"$\x7bA\x7d\",[]]\x7d,[0,4],1,1]]]\x7d,[0,4],1,1]"
    let read (_ : String) : Except ReadFailure ByteArray := .ok text.toUTF8
    let resolved := run ["resolve", "--json", "tree", "--strict"] read
    let parsed := run ["parse", "--json", "--resolve", "--strict", "tree"] read
    resolved.status = 1 ∧ parsed.status = 1 ∧ resolved.reports = parsed.reports := by
  intro text read resolved parsed
  have hResolving : Request.ofArguments ["resolve", "--json", "tree", "--strict"] =
      .ok ⟨⟨"tree", true⟩, .resolve ⟨[], "set", true⟩⟩ := eq_ok_of_toOption (by decide +kernel)
  have hParsing : Request.ofArguments ["parse", "--json", "--resolve", "--strict", "tree"] =
      .ok ⟨⟨"tree", true⟩, .parse (some ⟨[], "set", true⟩) .compact⟩ := eq_ok_of_toOption (by decide +kernel)
  have hSize : text.toUTF8.size < 0x8000000000000000 := by decide +kernel
  have hReported : (Node.ofJson text).toOption.any fun root =>
      !((ResolveOptions.mk [] "set" true).apply root).diagnostics.isEmpty := by decide +kernel
  cases hTree : Node.ofJson text with
  | error error =>
    rw [hTree] at hReported
    cases hReported
  | ok root =>
    rw [hTree] at hReported
    have hLoad : Input.load ⟨"tree", true⟩ (.ok text.toUTF8) = .ok ⟨"tree", root, none⟩ := Input.load_tree hTree
    have hRead : read "tree" = .ok text.toUTF8 := rfl
    obtain ⟨hSame, hStatus, hReports, -⟩ :=
      resolve_agrees_with_parse hSize hRead hLoad ⟨[], "set", true⟩ .compact hResolving hParsing
    have hNe : ((ResolveOptions.mk [] "set" true).apply root).diagnostics ≠ [] := by
      intro hNone
      rw [Except.toOption, Option.any_some, hNone] at hReported
      cases hReported
    have hOne : resolved.status = 1 := hStatus.trans (if_pos ⟨rfl, hNe⟩)
    exact ⟨hOne, hSame ▸ hOne, hReports⟩

end CommandLine

end Listfile
