import Listfile.CommandLine.Run
import Listfile.Proofs.Grammar.Places
/-! # A script and its exported tree

What the command `parse` prints for a script is the tree of the script. So a file to which it is saved may be given in
place of the script: every command prints the same and ends with the same status, and has the same diagnostics.
-/
namespace Listfile.CommandLine
set_option autoImplicit false

theorem fromUTF8?_toUTF8 (text : String) : String.fromUTF8? text.toUTF8 = some text := by
  rw [String.fromUTF8?, dif_pos (String.toUTF8_eq_toByteArray ▸ text.isValidUTF8)]
  rfl

/-! ## Loading -/

theorem Input.load_script {file source : String} {bytes : ByteArray} {root : Node}
    (hText : String.fromUTF8? bytes = some source) (hParse : parse source = .ok root) :
    Input.load ⟨file, false⟩ (.ok bytes) = .ok ⟨file, root, some source⟩ := by
  simp only [load, Except.mapError, bind, Except.bind, hText, hParse]
  rfl

theorem Input.load_tree {file text : String} {root : Node} (h : Node.ofJson text = .ok root) :
    Input.load ⟨file, true⟩ (.ok text.toUTF8) = .ok ⟨file, root, none⟩ := by
  simp only [load, Except.mapError, bind, Except.bind, fromUTF8?_toUTF8, h]
  rfl

/-! ## Actions -/

/-- What an action prints of a tree, and the diagnostics that it has. -/
def Action.result (action : Action) (root : Node) : String × List Diagnostic :=
  match action with
  | .dump only => (Outcome.lines (Listfile.dump only root), [])
  | .resolve options => (Outcome.lines (resolutionLines (options.apply root)), (options.apply root).diagnostics)
  | .parse none layout => (Outcome.lines [root.render layout], [])
  | .parse (some options) layout =>
    (Outcome.lines [(options.apply root).tree.render layout], (options.apply root).diagnostics)

/-- What is printed and the diagnostics are a matter of the tree; only reports show where it came from. -/
theorem Action.perform_eq (action : Action) (document : Document) :
    action.perform document =
      document.outcome (action.result document.root).1 (action.result document.root).2 := by
  cases action with
  | parse options? layout => cases options? <;> rfl
  | _ => rfl

namespace Document

theorem output_outcome (document : Document) (output : String) (diagnostics : List Diagnostic) :
    (document.outcome output diagnostics).output = output := by
  unfold outcome
  split <;> rfl

theorem status_outcome (document : Document) (output : String) (diagnostics : List Diagnostic) :
    (document.outcome output diagnostics).status = if diagnostics.isEmpty then 0 else 1 := by
  unfold outcome
  split <;> rfl

theorem reports_outcome (document : Document) (output : String) (diagnostics : List Diagnostic) :
    (document.outcome output diagnostics).reports =
      if diagnostics.isEmpty then [] else diagnostics.map document.report ++ [document.summary diagnostics] := by
  unfold outcome
  split <;> rfl

end Document

theorem lines_singleton (line : String) : Outcome.lines [line] = line ++ "\n" := by
  simp [Outcome.lines, String.join]

theorem blank_lineFeed : Json.Blank "\n".toList := by
  have hToList : "\n".toList = ['\n'] := by decide +kernel
  intro c hMem
  rw [hToList, List.mem_singleton] at hMem
  rw [hMem]
  decide

/-! ## Runs -/

section run

variable {read : String → Except ReadFailure ByteArray} {arguments : List String} {file : String} {action : Action}
  {root : Node}

theorem run_of_load {input : Input} {bytes : ByteArray} {document : Document}
    (hArguments : Request.ofArguments arguments = .ok ⟨input, action⟩) (hRead : read input.file = .ok bytes)
    (hLoad : input.load (.ok bytes) = .ok document) :
    run arguments read = document.outcome (action.result document.root).1 (action.result document.root).2 := by
  rw [run, hArguments]
  simp only [Request.perform, hRead, hLoad, Action.perform_eq]

theorem run_script {source : String} {bytes : ByteArray}
    (hArguments : Request.ofArguments arguments = .ok ⟨⟨file, false⟩, action⟩) (hRead : read file = .ok bytes)
    (hText : String.fromUTF8? bytes = some source) (hParse : parse source = .ok root) :
    run arguments read =
      (Document.mk file root (some source)).outcome (action.result root).1 (action.result root).2 :=
  run_of_load hArguments hRead (Input.load_script hText hParse)

theorem run_tree {text : String} (hArguments : Request.ofArguments arguments = .ok ⟨⟨file, true⟩, action⟩)
    (hRead : read file = .ok text.toUTF8) (h : Node.ofJson text = .ok root) :
    run arguments read = (Document.mk file root none).outcome (action.result root).1 (action.result root).2 :=
  run_of_load hArguments hRead (Input.load_tree h)

end run

/-- A script that is accepted and the file to which its tree was saved may be given for each other. A command has the
same output, the same status and the same diagnostics for both. For the tree, `parse` prints the compact export of the
script. A script has less than `2 ^ 63` bytes, as every text in memory. -/
theorem saved_tree_is_interchangeable {read : String → Except ReadFailure ByteArray} {file saved source : String}
    {bytes : ByteArray} {root : Node} (hRead : read file = .ok bytes) (hText : String.fromUTF8? bytes = some source)
    (hSource : source.utf8ByteSize < 0x8000000000000000) (hParse : parse source = .ok root) {exporting : List String}
    {layout : Json.Layout} (hExporting : Request.ofArguments exporting = .ok ⟨⟨file, false⟩, .parse none layout⟩)
    (hSaved : read saved = .ok (run exporting read).output.toUTF8) :
    (∀ action ofScript ofTree, Request.ofArguments ofScript = .ok ⟨⟨file, false⟩, action⟩ →
      Request.ofArguments ofTree = .ok ⟨⟨saved, true⟩, action⟩ →
      let outcome := run ofScript read
      let outcome' := run ofTree read
      outcome.output = outcome'.output ∧ outcome.status = outcome'.status ∧
      ∃ diagnostics, outcome = (Document.mk file root (some source)).outcome outcome.output diagnostics ∧
        outcome' = (Document.mk saved root none).outcome outcome'.output diagnostics) ∧
    ∀ ofTree, Request.ofArguments ofTree = .ok ⟨⟨saved, true⟩, .parse none .compact⟩ →
      (run ofTree read).output = root.render .compact ++ "\n" := by
  have hOutput : (run exporting read).output = root.render layout ++ "\n" := by
    rw [run_script hExporting hRead hText hParse, Document.output_outcome]
    exact lines_singleton _
  have hTree : Node.ofJson (run exporting read).output = .ok root := by
    rw [hOutput]
    exact Node.ofJson_render_append layout (Node.readable_of_parse hSource hParse) blank_lineFeed
  constructor
  · intro action ofScript ofTree hOfScript hOfTree outcome outcome'
    have hScript : outcome = _ := run_script hOfScript hRead hText hParse
    have hTree' : outcome' = _ := run_tree hOfTree hSaved hTree
    rw [hScript, hTree']
    simp only [Document.output_outcome, Document.status_outcome, true_and]
    exact ⟨_, rfl, rfl⟩
  · intro ofTree hOfTree
    rw [run_tree hOfTree hSaved hTree, Document.output_outcome]
    exact lines_singleton _

theorem eq_ok_of_toOption {ε α : Type} {result : Except ε α} {value : α} (h : result.toOption = some value) :
    result = .ok value := by
  cases result with
  | error => cases h
  | ok => exact congrArg Except.ok (Option.some.inj h)

/-- A script that includes a file by a reference without a value, and its indented export. -/
theorem saved_tree_is_interchangeable_of_reference :
    let source := "set(A b)\ninclude($\x7bA\x7d/$\x7bC\x7d)\ninclude($\x7bC\x7d)\n"
    let exporting := ["parse", "--pretty", "script"]
    let onlyScript (file : String) : Except ReadFailure ByteArray :=
      if file = "script" then .ok source.toUTF8 else .error .notFound
    let read (file : String) : Except ReadFailure ByteArray :=
      if file = "tree" then .ok (run exporting onlyScript).output.toUTF8 else onlyScript file
    let ofScript := ["resolve", "--strict", "script"]
    let ofTree := ["resolve", "--json", "tree", "--strict"]
    (run ofScript read).output = (run ofTree read).output ∧ (run ofScript read).status = (run ofTree read).status := by
  intro source exporting onlyScript read ofScript ofTree
  have hExporting : Request.ofArguments exporting = .ok ⟨⟨"script", false⟩, .parse none .indented⟩ :=
    eq_ok_of_toOption (by decide +kernel)
  have hOfScript : Request.ofArguments ofScript = .ok ⟨⟨"script", false⟩, .resolve ⟨[], "set", true⟩⟩ :=
    eq_ok_of_toOption (by decide +kernel)
  have hOfTree : Request.ofArguments ofTree = .ok ⟨⟨"tree", true⟩, .resolve ⟨[], "set", true⟩⟩ :=
    eq_ok_of_toOption (by decide +kernel)
  have hRead : read "script" = .ok source.toUTF8 := rfl
  have hSaved : read "tree" = .ok (run exporting read).output.toUTF8 := by
    have hSame : run exporting read = run exporting onlyScript := by
      rw [run, run, hExporting]
      rfl
    rw [hSame]
    rfl
  have hSource : source.utf8ByteSize < 0x8000000000000000 := by decide +kernel
  cases hParse : parse source with
  | error error =>
    have hOk : (parse source).isOk := by decide +kernel
    rw [hParse] at hOk
    cases hOk
  | ok root =>
    obtain ⟨hInterchange, -⟩ := saved_tree_is_interchangeable hRead (fromUTF8?_toUTF8 source) hSource hParse hExporting
      hSaved
    obtain ⟨hOutput, hStatus, -⟩ := hInterchange _ ofScript ofTree hOfScript hOfTree
    exact ⟨hOutput, hStatus⟩

end Listfile.CommandLine
