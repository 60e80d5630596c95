import Listfile.Proofs.Grammar.Places
import Listfile.Proofs.Resolve.Pass
import Listfile.Proofs.Tree.Imported
/-! # Trees read back

A tree comes from a script or from a text, and may have been resolved any number of times. Resolution changes neither
places nor what came with unknown nodes, so such a tree is written as a text that is read as the same tree. Only numbers
that were kept with an unknown node may be lost, if they are not integers that fit.
-/
namespace Listfile.Node
set_option autoImplicit false

/-! ## Resolution -/

mutual

theorem sound_renameInclusions (rename : Path → String → String) (node : Node) (h : node.Everywhere Sound) :
    (node.renameInclusions rename).Everywhere Sound := by
  cases node with
  | toplevel place statements =>
    obtain ⟨hSelf, hStatements⟩ := everywhere_toplevel.mp h
    rw [renameInclusions]
    exact everywhere_toplevel.mpr ⟨hSelf, sound_renameAll rename .statements 0 statements hStatements⟩
  | block place form header body footer =>
    obtain ⟨hSelf, hHeader, hBody, hFooter⟩ := everywhere_block.mp h
    rw [renameInclusions]
    exact everywhere_block.mpr ⟨hSelf, sound_renameInclusions _ header hHeader,
      sound_renameAll rename .body 0 body hBody, sound_renameInclusions _ footer hFooter⟩
  | conditional place ifClause elseifs elseClause footer =>
    obtain ⟨hSelf, hIf, hElseifs, hElse, hFooter⟩ := everywhere_conditional.mp h
    rw [renameInclusions]
    exact everywhere_conditional.mpr ⟨hSelf, sound_renameInclusions _ ifClause hIf,
      sound_renameAll rename .elseifClauses 0 elseifs hElseifs, sound_renameOption rename .elseClause elseClause hElse,
      sound_renameInclusions _ footer hFooter⟩
  | clause place form header body =>
    obtain ⟨hSelf, hHeader, hBody⟩ := everywhere_clause.mp h
    rw [renameInclusions]
    exact everywhere_clause.mpr
      ⟨hSelf, sound_renameInclusions _ header hHeader, sound_renameAll rename .body 0 body hBody⟩
  | call place name arguments =>
    obtain ⟨hSelf, hArguments⟩ := everywhere_call.mp h
    rw [renameInclusions]
    exact everywhere_call.mpr ⟨hSelf, sound_renameAll rename .arguments 0 arguments hArguments⟩
  | inclusion =>
    rw [renameInclusions]
    exact (everywhere_leaf rfl).mpr h.self
  | word =>
    rw [renameInclusions]
    exact h
  | unrecognized =>
    rw [renameInclusions]
    exact h

theorem sound_renameAll (rename : Path → String → String) (slot : Slot) (index : Nat) (nodes : List Node)
    (h : ∀ node ∈ nodes, node.Everywhere Sound) :
    ∀ node ∈ renameAll rename slot index nodes, node.Everywhere Sound := by
  cases nodes with
  | nil =>
    rw [renameAll]
    exact List.forall_mem_nil _
  | cons first rest =>
    obtain ⟨hFirst, hRest⟩ := List.forall_mem_cons.mp h
    rw [renameAll]
    exact List.forall_mem_cons.mpr
      ⟨sound_renameInclusions _ first hFirst, sound_renameAll rename slot (index + 1) rest hRest⟩

theorem sound_renameOption (rename : Path → String → String) (slot : Slot) (child : Option Node)
    (h : ∀ node ∈ child, node.Everywhere Sound) : ∀ node ∈ renameOption rename slot child, node.Everywhere Sound := by
  cases child with
  | none =>
    rw [renameOption]
    intro node hNode
    cases hNode
  | some first =>
    rw [renameOption]
    intro node hNode
    cases hNode
    exact sound_renameInclusions _ first (h first rfl)

end

/-! ## All trees -/

/-- The trees that come from a script or from a text. A script has less than `2 ^ 63` bytes, as every text in memory. -/
inductive Obtained : Node → Prop
  | parsed {source : String} {root : Node} (hSource : source.utf8ByteSize < 0x8000000000000000)
    (h : parse source = .ok root) : Obtained root
  | read {text : String} {root : Node} (h : ofJson text = .ok root) : Obtained root
  | resolved (command : String) (strict : Bool) (seed : SymbolTable) {root : Node} (h : Obtained root) :
    Obtained (resolve command strict seed root).tree

theorem Obtained.sound {root : Node} (h : root.Obtained) : root.Everywhere Sound := by
  induction h with
  | parsed hSource h => exact sound_of_parse hSource h
  | read h => exact sound_of_ofJson h
  | resolved command strict seed h ih =>
    rw [Resolve.tree_resolve]
    exact sound_renameInclusions _ _ ih

/-- A node of unknown kind holds an object with one member, which does not have the name of a kind. -/
theorem Sound.tagged_eq {node : Node} (h : node.Sound) (hKind : node.kind? = none) :
    ∃ tag payload, node.tagged node.payload = .object [(tag, payload)] ∧ ∀ kind : Kind, kind.name ≠ tag := by
  cases node with
  | unrecognized place tag payload =>
    refine ⟨tag, payload, rfl, fun kind hName => ?_⟩
    obtain ⟨-, hUnknown, -⟩ := h
    rw [← hName, Kind.ofName?_name] at hUnknown
    cases hUnknown
  | _ => cases hKind

/-- What is written for a tree is read as the same tree, in both layouts, if all numbers that unknown nodes hold are
integers from `-2 ^ 63` to `2 ^ 64 - 1`. What an unknown node holds does not look like a known one. -/
theorem obtained_reads_back {root : Node} (h : root.Obtained) :
    (root.Everywhere PlainPayload → ∀ layout, ofJson (root.render layout) = .ok root) ∧
    root.Everywhere fun node => node.kind? = none →
      ∃ tag payload, node.tagged node.payload = .object [(tag, payload)] ∧ ∀ kind : Kind, kind.name ≠ tag :=
  ⟨fun hPlain layout => ofJson_render layout (h.sound.and hPlain), h.sound.imp fun _ hSound => hSound.tagged_eq⟩

/-- A script with a node of unknown kind, which holds a string that has to be escaped and a number. -/
def annotated : Node :=
  let place : Location := ⟨⟨0, 4⟩, ⟨1, 1⟩⟩
  .toplevel place [.unrecognized place "Note" (.object [("depth", .ofInt (-3)), ("text", .string "\"\n")])]

theorem readable_annotated : annotated.Everywhere Readable := by
  have hFits : Location.Fits ⟨⟨0, 4⟩, ⟨1, 1⟩⟩ := by
    unfold Location.Fits Json.Fits
    decide
  refine everywhere_toplevel.mpr ⟨⟨hFits, trivial⟩, List.forall_mem_singleton.mpr ?_⟩
  -- The tag is not the name of a kind, its members are sorted, and its number is small.
  refine (everywhere_leaf rfl).mpr ⟨⟨hFits, by decide, ?_⟩, ?_⟩
  · refine Json.everywhere_object ⟨trivial, List.pairwise_pair.mpr (by decide)⟩ ?_
    rintro member (_ | ⟨_, _ | ⟨_, _ | _⟩⟩) inner hInner <;> cases hInner <;>
      simp [Json.Writable, Json.Number.Writable, Json.Ordered, Json.ofInt]
  · refine Json.everywhere_object trivial ?_
    rintro member (_ | ⟨_, _ | ⟨_, _ | _⟩⟩) inner hInner <;> cases hInner <;> simp [Json.Plain, Json.ofInt]

/-- A tree that was read from a compact text and then resolved is read back from an indented text. -/
theorem obtained_reads_back_of_annotated :
    ofJson ((resolve "set" true .empty annotated).tree.render .indented) =
      .ok (resolve "set" true .empty annotated).tree := by
  have hTree : (resolve "set" true .empty annotated).tree = annotated := by
    rw [Resolve.tree_resolve]
    rfl
  have hObtained : (resolve "set" true .empty annotated).tree.Obtained :=
    .resolved "set" true .empty (.read (ofJson_render .compact readable_annotated))
  have hPlain : (resolve "set" true .empty annotated).tree.Everywhere PlainPayload := by
    rw [hTree]
    exact readable_annotated.imp fun _ h => h.2
  exact (obtained_reads_back hObtained).1 hPlain .indented

end Listfile.Node
